import SymbolicRewriting.Oracle.Syntactic
import SymbolicRewriting.Proofs.SearchRounds

/-!
# The states that a search has met

Equal terms write the same to a hasher, whatever the hasher makes of it, so they have the same
fingerprint and a hashed set stores one of them only. The set that a search keeps holds every state
that has been examined or waits to be, each of them once.
-/

namespace SymbolicRewriting

open List

variable {σ : Type}

/-- What is written to a hasher at a time. -/
inductive Write where
  | text (value : String)
  | word (value : UInt64)

/-- The hasher that keeps all that is written to it and digests it in an arbitrary way. -/
abbrev Hasher.keeping (digest : List Write → UInt64) : Hasher (List Write) where
  start := []
  text value writes := writes ++ [.text value]
  word value writes := writes ++ [.word value]
  finish := digest

namespace Term

/-- All that a term writes. It depends on the digest, since cells are digested one by one and the sum
of their digests is written. -/
def written (digest : List Write → UInt64) (term : Term) : List Write :=
  letI := Hasher.keeping digest
  term.feed []

theorem EqualTo.written_eq {left right : Term} (hequal : left.EqualTo right)
    (digest : List Write → UInt64) : left.written digest = right.written digest :=
  letI := Hasher.keeping digest
  hequal.feed_eq []

/-! Sets of terms under any hasher. -/

section Sets

variable (η : Type) [Hasher η]

abbrev hashedBy : Hashable Term := ⟨fingerprintWith η⟩

theorem lawfulHashable_hashedBy : @LawfulHashable Term _ (hashedBy η) :=
  letI := hashedBy η
  ⟨fun _ _ hequal => EqualTo.fingerprintWith_eq η hequal⟩

/-- The set of the given terms, hashed by the given hasher. -/
def stored (terms : List Term) : @Std.HashSet Term _ (hashedBy η) :=
  letI := hashedBy η
  .ofList terms

theorem distinct_stored (terms : List Term) :
    (stored η terms).toList.Pairwise fun term other => (term == other) = false :=
  letI := hashedBy η
  haveI := lawfulHashable_hashedBy η
  Std.HashSet.distinct_toList

theorem contains_stored (terms : List Term) (term : Term) :
    (stored η terms).contains term = terms.contains term :=
  letI := hashedBy η
  haveI := lawfulHashable_hashedBy η
  Std.HashSet.contains_ofList

end Sets

end Term

namespace Frontier

/-- What has been met are the states that have been examined or wait, each of them once, and the room
that is left is what they leave of the limit. -/
structure Tracks (done : List Term) (limit : Nat) (frontier : Frontier) : Prop where
  met : frontier.met.toList.Perm (done ++ frontier.waiting.toList.map Prod.fst)
  room : frontier.met.size + frontier.room = limit

theorem tracks_start (subject : Term) (maxStates : Nat) :
    (start subject maxStates).Tracks [] (max 1 maxStates) where
  met := by
    have hinsert := Std.HashSet.toList_insert_perm (m := (∅ : Std.HashSet Term)) (k := subject)
    rwa [if_neg Std.HashSet.not_mem_empty, Std.HashSet.toList_empty] at hinsert
  room := by
    have hsize : (start subject maxStates).met.size = 1 :=
      Std.HashSet.size_insert.trans (if_neg Std.HashSet.not_mem_empty)
    have hroom : (start subject maxStates).room = maxStates - 1 := rfl
    omega

theorem letIn_of_met {frontier : Frontier} (depth : Nat) {terms : List Term}
    (hmet : ∀ term ∈ terms, frontier.met.contains term = true) :
    frontier.letIn depth terms = frontier := by
  induction terms with
  | nil => rfl
  | cons term terms ih =>
      obtain ⟨hterm, hterms⟩ := forall_mem_cons.1 hmet
      rw [letIn, if_pos hterm]
      exact ih hterms

namespace Tracks

variable {done : List Term} {limit : Nat} {frontier : Frontier}

/-- A state is let in only if no equal one has been met. -/
theorem letIn (htracks : frontier.Tracks done limit) (depth : Nat) (terms : List Term) :
    (frontier.letIn depth terms).Tracks done limit := by
  fun_induction Frontier.letIn depth terms frontier with
  | case1 => exact htracks
  | case2 term terms frontier _ ih => exact ih htracks
  | case3 => exact ⟨htracks.met, htracks.room⟩
  | case4 term terms frontier hnew room hroom ih =>
      have hmem : term ∉ frontier.met := by rwa [Std.HashSet.mem_iff_contains]
      apply ih
      constructor
      · have hinsert := Std.HashSet.toList_insert_perm (m := frontier.met) (k := term)
        rw [if_neg hmem] at hinsert
        rw [Queue.toList_push, map_append, ← List.append_assoc]
        exact (hinsert.trans (htracks.met.cons term)).trans (perm_append_singleton term _).symm
      · have hsize : (frontier.met.insert term).size = frontier.met.size + 1 :=
          Std.HashSet.size_insert.trans (if_neg hmem)
        have hlimit := htracks.room
        change (frontier.met.insert term).size + room = limit
        omega

/-- The state that has waited longest is examined. -/
theorem pop (htracks : frontier.Tracks done limit) {entry : Term × Nat} {waiting : Queue (Term × Nat)}
    (hpop : frontier.waiting.pop? = some (entry, waiting)) :
    Tracks (done ++ [entry.1]) limit { frontier with waiting } where
  met := by
    have hmet := htracks.met
    rwa [Queue.toList_of_pop? hpop, map_cons, append_cons] at hmet
  room := htracks.room

theorem extend (htracks : frontier.Tracks done limit) (config : SearchConfig) (depth : Nat)
    (next : List (RuleId × Term)) :
    (Machine.extendFrontier config depth next frontier).Tracks done limit := by
  unfold Machine.extendFrontier
  split
  · exact ⟨htracks.met, htracks.room⟩
  · exact htracks.letIn _ _

theorem distinct (htracks : frontier.Tracks done limit) :
    done.Pairwise fun term other => (term == other) = false := by
  have hmet : frontier.met.toList.Pairwise fun term other => (term == other) = false :=
    Std.HashSet.distinct_toList
  have hall := htracks.met.pairwise hmet fun hdiffers => BEq.comm.trans hdiffers
  exact (pairwise_append.1 hall).1

end Tracks

end Frontier

namespace Machine

variable {machine : Machine σ} {pattern subject : Term} {config : SearchConfig}

/-- Having examined these states, a search comes to this frontier. -/
inductive ComesTo (machine : Machine σ) (config : SearchConfig) (subject : Term)
    (start : RunState σ) : List (Term × Nat) → Frontier → RunState σ → Prop
  | start : ComesTo machine config subject start [] (Frontier.start subject config.maxStates) start
  | round {examined : List (Term × Nat)} {frontier : Frontier} {waiting : Queue (Term × Nat)}
      {term : Term} {depth : Nat} {results : List (RuleId × Term)} {between next : RunState σ}
      (hcomes : ComesTo machine config subject start examined frontier between)
      (hpop : frontier.waiting.pop? = some ((term, depth), waiting))
      (hsuccessors : machine.successors term between = .ok results next) :
      ComesTo machine config subject start (examined ++ [(term, depth)])
        (extendFrontier config depth results { frontier with waiting }) next

theorem ComesTo.tracks {start between : RunState σ} {examined : List (Term × Nat)}
    {frontier : Frontier} (hcomes : machine.ComesTo config subject start examined frontier between) :
    frontier.Tracks (examined.map Prod.fst) (max 1 config.maxStates) := by
  induction hcomes with
  | start => exact Frontier.tracks_start subject config.maxStates
  | round _ hpop _ ih =>
      rw [map_append]
      exact (ih.pop hpop).extend config _ _

/-- By induction on the rounds: the states examined so far are tracked by each frontier. -/
theorem Examines.distinct {frontier : Frontier} {solutions : Array Solution} {states limit : Nat}
    {start final : RunState σ} {examined : List (Term × Nat)} {result : SearchResult}
    (hexamines : machine.Examines pattern config frontier solutions states start examined result final)
    {done : List Term} (htracks : frontier.Tracks done limit) :
    result.states = states + examined.length ∧
      (done ++ examined.map Prod.fst).Pairwise fun term other => (term == other) = false := by
  induction hexamines generalizing done with
  | exhausted _ =>
      rw [map_nil, List.append_nil]
      exact ⟨rfl, htracks.distinct⟩
  | satisfied hpop _ => exact ⟨rfl, (htracks.pop hpop).distinct⟩
  | next hpop _ _ _ ih =>
      obtain ⟨hstates, hdistinct⟩ := ih ((htracks.pop hpop).extend config _ _)
      rw [map_cons, append_cons, length_cons]
      exact ⟨by omega, hdistinct⟩

/-- Equal terms, whatever their cell identities and the order of their cells, write the same to any
hasher and have the same fingerprint, so that a hashed set stores one of them. The set of a search
stores no two equal states: it consists of those that have been examined and those that wait, and it
is as large as the room that has been used. -/
theorem equal_states_hashed_alike :
    (∀ left right : Term, (left == right) = true →
      (∀ digest, left.written digest = right.written digest) ∧
      (∀ (η : Type) [Hasher η], (∀ state : η, left.feed state = right.feed state) ∧
        left.fingerprintWith η = right.fingerprintWith η) ∧
      left.fingerprint = right.fingerprint) ∧
    (∀ (η : Type) [Hasher η] (terms : List Term),
      ((Term.stored η terms).toList.Pairwise fun term other => (term == other) = false) ∧
      ∀ term, (Term.stored η terms).contains term = terms.contains term) ∧
    (∀ (machine : Machine σ) (config : SearchConfig) (subject : Term) (start between : RunState σ)
      (examined : List (Term × Nat)) (frontier : Frontier),
      machine.ComesTo config subject start examined frontier between →
      (frontier.met.toList.Pairwise fun term other => (term == other) = false) ∧
      frontier.met.toList.Perm ((examined ++ frontier.waiting.toList).map Prod.fst) ∧
      frontier.met.size + frontier.room = max 1 config.maxStates) ∧
    ∀ (machine : Machine σ) (pattern : Term) (config : SearchConfig) (subject : Term)
      (start final : RunState σ) (result : SearchResult),
      machine.search subject pattern config start = .ok result final →
      ∃ examined, machine.Examines pattern config (Frontier.start subject config.maxStates) #[] 0
          start examined result final ∧
        result.states = examined.length ∧
        examined.Pairwise fun entry other => (entry.1 == other.1) = false := by
  refine ⟨?alike, ?stored, ?comes, ?examined⟩
  case alike =>
    intro left right hequal
    have hfeed : ∀ (η : Type) [Hasher η] (state : η), left.feed state = right.feed state :=
      fun _ _ => Term.EqualTo.feed_eq hequal
    exact ⟨Term.EqualTo.written_eq hequal,
      fun η _ => ⟨hfeed η, Term.EqualTo.fingerprintWith_eq η hequal⟩,
      Term.EqualTo.fingerprintWith_eq UInt64 hequal⟩
  case stored => exact fun η _ terms => ⟨Term.distinct_stored η terms, Term.contains_stored η terms⟩
  case comes =>
    intro machine config subject start between examined frontier hcomes
    have htracks := hcomes.tracks
    rw [map_append]
    exact ⟨Std.HashSet.distinct_toList, htracks.met, htracks.room⟩
  case examined =>
    intro machine pattern config subject start final result hsearch
    obtain ⟨examined, hexamines⟩ := searchFrom_eq_ok.1 hsearch
    obtain ⟨hstates, hdistinct⟩ := hexamines.distinct (Frontier.tracks_start subject config.maxStates)
    rw [Nat.zero_add] at hstates
    exact ⟨examined, hexamines, hstates, pairwise_map.1 hdistinct⟩

end Machine

namespace Slots

def left : Variable := ⟨"X", Symbol.top, .plain⟩

def right : Variable := ⟨"Y", Symbol.top, .plain⟩

def slots (first second : CellId × Term) : Term :=
  .collection [⟨first.1, "slot", first.2⟩, ⟨second.1, "slot", second.2⟩] none

/-- The two slots change places, which makes no difference. -/
def machine : Machine Unit where
  definition := .assemble
    [.rule
      { lhs := slots (0, .var left) (1, .var right)
        rhs := slots (0, .var right) (1, .var left) }]
  oracle := DecisionProcedure.syntactic.toOracle Unit

/-- Slots in a slot. -/
def subject : Term := slots (0, .string "a") (1, slots (2, .string "b") (3, .string "c"))

def other : Term := slots (7, slots (5, .string "c") (6, .string "b")) (4, .string "a")

/-- Both ways to change the places give a state that is equal to the first one, so there is nothing more
to examine. -/
theorem equal_states_hashed_alike_slots :
    (subject == other) = true ∧ subject.fingerprint = other.fingerprint ∧
    ∃ results between result examined,
      machine.successors subject { environment := () } = .ok results between ∧ results.length = 2 ∧
      machine.ComesTo {} subject { environment := () } [(subject, 0)]
        { Frontier.start subject 100000 with waiting := {} } between ∧
      (Frontier.start subject 100000).met.toList.Perm [subject] ∧
      machine.Examines (.app "done" []) {} (Frontier.start subject 100000) #[] 0
        { environment := () } examined result between ∧
      examined.length = 1 := by
  obtain ⟨halike, -, hcomes, hexamined⟩ := Machine.equal_states_hashed_alike (σ := Unit)
  have hequal : (subject == other) = true := by decide +kernel
  have hnone : machine.definition.concreteMatches (.app "done" []) subject = [] :=
    List.isEmpty_iff.1 (by decide +kernel)
  have hsucceeds : (machine.successors subject).succeedsWith { environment := () }
      (fun results => results.length == 2 && results.all (subject == ·.2)) = true := by
    decide +kernel
  obtain ⟨results, between, hsuccessors, htest⟩ := Run.exists_of_succeedsWith hsucceeds
  obtain ⟨hlength, hback⟩ := Bool.and_eq_true_iff.1 htest
  have hextend : Machine.extendFrontier {} 0 results
      { Frontier.start subject 100000 with waiting := {} } =
        { Frontier.start subject 100000 with waiting := {} } :=
    Frontier.letIn_of_met _ fun term hterm => by
      obtain ⟨result, hresult, rfl⟩ := List.mem_map.1 hterm
      change (Std.HashSet.insert ∅ subject).contains result.2 = true
      rw [Std.HashSet.contains_insert, List.all_eq_true.1 hback result hresult, Bool.true_or]
  have hround : machine.ComesTo {} subject { environment := () } [(subject, 0)]
      { Frontier.start subject 100000 with waiting := {} } between := by
    have hround := (Machine.ComesTo.start : machine.ComesTo {} subject _ _ _ _).round rfl hsuccessors
    rwa [List.nil_append, hextend] at hround
  have hcollect : collectSolutions {} subject 0
      (machine.definition.concreteMatches (.app "done" []) subject) #[] = (#[], false) := by
    rw [hnone]
    rfl
  have hsearch : machine.search subject (.app "done" []) {} { environment := () } =
      .ok ⟨[], 1, true⟩ between := by
    rw [Machine.search, Machine.searchFrom_of_next _ rfl hcollect]
    refine Run.bind_eq_ok.2 ⟨results, between, hsuccessors, ?_⟩
    refine (congrFun (congrArg (machine.searchFrom _ _ · #[] 1) hextend) between).trans ?_
    rw [Machine.searchFrom_of_exhausted _ rfl]
    rfl
  obtain ⟨examined, hexamines, hstates, -⟩ := hexamined _ _ _ _ _ _ _ hsearch
  exact ⟨hequal, (halike _ _ hequal).2.2, results, between, _, examined, hsuccessors,
    beq_iff_eq.1 hlength, hround, (hcomes _ _ _ _ _ _ _ hround).2.1, hexamines, hstates.symm⟩

end Slots

end SymbolicRewriting
