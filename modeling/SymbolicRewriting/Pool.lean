import SymbolicRewriting.Total

/-!
A pool of workers that apply a function to the members of a list. The indices of the members wait
in a shared queue. A worker empties its own queue, then takes a batch from the shared queue or from
the queue of another worker, and leaves when it finds all of them empty or is told to stop. A move
of a worker touches one queue, or asks once whether to stop, or calls the function once. Which
worker moves next, and how many indices it takes, is up to a schedule. The results are in the order
of the members, whatever the schedule.
-/

namespace SymbolicRewriting

/-- A worker asks whether to stop, looks into its own queue, then into the shared one, then into
those of its peers. From another queue it takes a batch. It carries the batch to its own queue, but
keeps the first index, and starts with it. -/
inductive WorkerPhase where
  | poll
  | own
  | shared
  | peer (index : Nat)
  | carry (index : Nat) (others : List Nat)
  | start (index : Nat)
  | gone
deriving DecidableEq, Repr

structure Worker where
  phase : WorkerPhase := .poll
  queue : List Nat := []

/-- Who moves next, counted in places after the worker that moved last, and how many further
indices it takes. -/
structure Move where
  ahead : Nat := 0
  batch : Nat := 0

abbrev Schedule := Nat → Move

/-- The schedule by which a worker moves until it is gone. -/
def Schedule.inTurn : Schedule := fun _ => {}

/-- The workers, the indices that none of them has taken, and the results, the last one first. -/
structure Crew (β : Type) where
  shared : List Nat
  workers : Array Worker
  results : List (Nat × β) := []

namespace Crew

variable {α β σ : Type}

def start (β : Type) (threads count : Nat) : Crew β :=
  { shared := List.range count, workers := Array.replicate (min threads count) {} }

def present (crew : Crew β) : List (Worker × Nat) :=
  crew.workers.toList.zipIdx.filter fun (worker, _) => worker.phase != .gone

/-- The worker whose turn it is: the one so many places ahead of the last place, in a circle, or the
first one that is left if that one is gone; none if all are gone. -/
def choose? (crew : Crew β) (last ahead : Nat) : Option (Worker × Nat) :=
  let place := (last + ahead) % crew.workers.size
  match crew.workers[place]? with
  | none => none
  | some worker => if worker.phase = .gone then crew.present.head? else some (worker, place)

def update (crew : Crew β) (place : Nat) (change : Worker → Worker) : Crew β :=
  { crew with workers := crew.workers.modify place change }

def enterPhase (crew : Crew β) (place : Nat) (phase : WorkerPhase) : Crew β :=
  crew.update place fun worker => { worker with phase }

def rob (crew : Crew β) (place count : Nat) : Crew β :=
  crew.update place fun worker => { worker with queue := worker.queue.drop count }

/-- The worker has put a batch into its own queue and starts with the index it has kept. -/
def give (crew : Crew β) (place index : Nat) (others : List Nat) : Crew β :=
  crew.update place fun worker => { phase := .start index, queue := worker.queue ++ others }

def perform (f : α → σ → β × σ) (items : Array α) (index : Nat) (crew : Crew β) (state : σ) :
    Crew β × σ :=
  match items[index]? with
  | none => (crew, state)
  | some item =>
      let (result, next) := f item state
      ({ crew with results := (index, result) :: crew.results }, next)

/-- One move of one worker. -/
def move (poll : σ → Bool × σ) (f : α → σ → β × σ) (items : Array α) (crew : Crew β)
    (worker : Worker) (place batch : Nat) (state : σ) : Crew β × σ :=
  match worker.phase with
  | .gone => (crew, state)
  | .poll =>
      match poll state with
      | (true, next) => (crew.enterPhase place .gone, next)
      | (false, next) => (crew.enterPhase place .own, next)
  | .own =>
      match worker.queue with
      | [] => (crew.enterPhase place .shared, state)
      | index :: _ => ((crew.rob place 1).enterPhase place (.start index), state)
  | .shared =>
      match crew.shared with
      | [] => (crew.enterPhase place (.peer 0), state)
      | index :: others =>
          let robbed := { crew with shared := others.drop batch }
          (robbed.enterPhase place (.carry index (others.take batch)), state)
  | .peer peer =>
      match crew.workers[peer]? with
      | none => (crew.enterPhase place .gone, state)
      | some other =>
          match other.queue with
          | [] => (crew.enterPhase place (.peer (peer + 1)), state)
          | index :: others =>
              let robbed := crew.rob peer (batch + 1)
              (robbed.enterPhase place (.carry index (others.take batch)), state)
  | .carry index others => (crew.give place index others, state)
  | .start index => perform f items index (crew.enterPhase place .poll) state

/-! Every move brings the crew closer to its end: each waiting index is worth more than all the
moves from one index to the next. -/

/-- The number of moves that a worker can make before it is gone, if it finds no further index. -/
def rank (threads : Nat) (phase : WorkerPhase) : Nat :=
  match phase with
  | .carry _ _ => threads + 6
  | .start _ => threads + 5
  | .poll => threads + 4
  | .own => threads + 3
  | .shared => threads + 2
  | .peer index => threads - index + 1
  | .gone => 0

/-- The indices that a worker carries to its own queue. -/
def carried (phase : WorkerPhase) : List Nat :=
  match phase with
  | .carry _ others => others
  | _ => []

def backlog (worker : Worker) : Nat :=
  worker.queue.length + (carried worker.phase).length

def waiting (crew : Crew β) : Nat :=
  crew.shared.length + total backlog crew.workers.toList

def movesLeft (crew : Crew β) : Nat :=
  total (fun worker => rank crew.workers.size worker.phase) crew.workers.toList

def measure (crew : Crew β) : Nat :=
  (crew.workers.size + 7) * crew.waiting + crew.movesLeft

theorem size_update (crew : Crew β) (place : Nat) (change : Worker → Worker) :
    (crew.update place change).workers.size = crew.workers.size := by
  simp [update]

theorem getElem?_toList_workers {crew : Crew β} {place : Nat} {worker : Worker}
    (hworker : crew.workers[place]? = some worker) :
    crew.workers.toList[place]? = some worker := by
  rwa [Array.getElem?_toList]

theorem waiting_update {crew : Crew β} {place : Nat} {worker : Worker}
    (hworker : crew.workers[place]? = some worker) (change : Worker → Worker) :
    (crew.update place change).waiting + backlog worker =
      crew.waiting + backlog (change worker) := by
  have := total_modify (getElem?_toList_workers hworker) backlog change
  simp only [waiting, update, Array.toList_modify]
  omega

theorem movesLeft_update {crew : Crew β} {place : Nat} {worker : Worker}
    (hworker : crew.workers[place]? = some worker) (change : Worker → Worker) :
    (crew.update place change).movesLeft + rank crew.workers.size worker.phase =
      crew.movesLeft + rank crew.workers.size (change worker).phase := by
  have := total_modify (getElem?_toList_workers hworker)
    (fun worker => rank crew.workers.size worker.phase) change
  simpa only [movesLeft, update, Array.size_modify, Array.toList_modify] using this

theorem measure_perform (f : α → σ → β × σ) (items : Array α) (index : Nat) (crew : Crew β)
    (state : σ) : (perform f items index crew state).1.measure = crew.measure := by
  unfold perform
  split <;> rfl

/-- A worker that goes on without another index. -/
theorem measure_enterPhase_lt {crew : Crew β} {place : Nat} {worker : Worker}
    (hworker : crew.workers[place]? = some worker) {phase : WorkerPhase}
    (hcarried : carried phase = carried worker.phase)
    (hrank : rank crew.workers.size phase < rank crew.workers.size worker.phase) :
    (crew.enterPhase place phase).measure < crew.measure := by
  have hwaiting := waiting_update hworker fun worker => { worker with phase }
  have hmoves := movesLeft_update hworker fun worker => { worker with phase }
  simp only [backlog, hcarried, Nat.add_right_cancel_iff] at hwaiting
  dsimp only at hmoves
  simp only [measure, enterPhase, size_update, hwaiting]
  omega

theorem rank_le (threads : Nat) (phase : WorkerPhase) : rank threads phase ≤ threads + 6 := by
  cases phase <;> simp only [rank] <;> omega

/-- A worker that has taken an index, and perhaps carries others. -/
theorem measure_take_lt {crew robbed : Crew β} {place : Nat} {worker : Worker}
    {phase : WorkerPhase} (hworker : robbed.workers[place]? = some worker)
    (hcarried : carried worker.phase = []) (hsize : robbed.workers.size = crew.workers.size)
    (hmoves : robbed.movesLeft = crew.movesLeft)
    (hwaiting : robbed.waiting + (carried phase).length + 1 = crew.waiting) :
    (robbed.enterPhase place phase).measure < crew.measure := by
  have htaken := waiting_update hworker fun worker => { worker with phase }
  have hphase := movesLeft_update hworker fun worker => { worker with phase }
  simp only [backlog, hcarried, List.length_nil] at htaken
  dsimp only at hphase
  have hless : (robbed.update place fun worker => { worker with phase }).waiting + 1 =
      crew.waiting := by
    omega
  have hrank := rank_le crew.workers.size phase
  simp only [measure, enterPhase, size_update, hsize, ← hless, Nat.mul_add] at hphase ⊢
  omega

/-- The indices that a worker has carried wait in its own queue. -/
theorem measure_give_lt {crew : Crew β} {place index : Nat} {others : List Nat} {worker : Worker}
    (hworker : crew.workers[place]? = some worker) (hphase : worker.phase = .carry index others) :
    (crew.give place index others).measure < crew.measure := by
  have hwaiting := waiting_update hworker fun worker =>
    { phase := .start index, queue := worker.queue ++ others }
  have hmoves := movesLeft_update hworker fun worker =>
    { phase := .start index, queue := worker.queue ++ others }
  simp only [backlog, hphase, carried, List.length_append, List.length_nil, Nat.add_zero,
    Nat.add_right_cancel_iff] at hwaiting
  simp only [hphase, rank] at hmoves
  simp only [measure, give, size_update, hwaiting]
  omega

theorem movesLeft_rob (crew : Crew β) (place count : Nat) :
    (crew.rob place count).movesLeft = crew.movesLeft := by
  cases hworker : crew.workers[place]? with
  | none =>
      have houtside : crew.workers.size ≤ place := Array.getElem?_eq_none_iff.1 hworker
      simp [rob, update, movesLeft, List.modify_eq_self houtside]
  | some worker =>
      have hmoves := movesLeft_update hworker fun worker =>
        { worker with queue := worker.queue.drop count }
      simp only [Nat.add_right_cancel_iff] at hmoves
      exact hmoves

theorem waiting_rob {crew : Crew β} {place index : Nat} {worker : Worker} {others : List Nat}
    (hworker : crew.workers[place]? = some worker) (hqueue : worker.queue = index :: others)
    (batch : Nat) :
    (crew.rob place (batch + 1)).waiting + (others.take batch).length + 1 = crew.waiting := by
  have hwaiting := waiting_update hworker fun worker =>
    { worker with queue := worker.queue.drop (batch + 1) }
  simp only [backlog, hqueue, List.drop_succ_cons, List.length_cons, List.length_drop] at hwaiting
  simp only [rob, List.length_take]
  omega

/-- A worker whose queue may have been robbed. -/
theorem getElem?_rob {crew : Crew β} {place : Nat} {worker : Worker}
    (hworker : crew.workers[place]? = some worker) (other count : Nat) :
    ∃ queue, (crew.rob other count).workers[place]? = some { worker with queue } := by
  simp only [rob, update, Array.getElem?_modify, hworker]
  split
  · exact ⟨worker.queue.drop count, rfl⟩
  · exact ⟨worker.queue, rfl⟩

theorem measure_move_lt (poll : σ → Bool × σ) (f : α → σ → β × σ) (items : Array α)
    {crew : Crew β} {worker : Worker} {place : Nat}
    (hworker : crew.workers[place]? = some worker) (hphase : worker.phase ≠ .gone) (batch : Nat)
    (state : σ) : (move poll f items crew worker place batch state).1.measure < crew.measure := by
  unfold move
  split
  · contradiction
  · rename_i hpoll
    split
    · exact measure_enterPhase_lt hworker (by rw [hpoll]; rfl) (by simp [hpoll, rank])
    · exact measure_enterPhase_lt hworker (by rw [hpoll]; rfl) (by simp [hpoll, rank])
  · rename_i hown
    split
    · exact measure_enterPhase_lt hworker (by rw [hown]; rfl) (by simp [hown, rank])
    · rename_i index others hqueue
      obtain ⟨queue, hrobbed⟩ := getElem?_rob hworker place 1
      exact measure_take_lt hrobbed (by rw [hown]; rfl) (size_update _ _ _) (movesLeft_rob _ _ _)
        (waiting_rob hworker hqueue 0)
  · rename_i hshared
    split
    · exact measure_enterPhase_lt hworker (by rw [hshared]; rfl) (by simp [hshared, rank])
    · rename_i index others hqueue
      refine measure_take_lt (by exact hworker) (by rw [hshared]; rfl) rfl rfl ?_
      simp only [waiting, carried, hqueue, List.length_drop, List.length_take, List.length_cons]
      omega
  · rename_i peer hpeer
    split
    · exact measure_enterPhase_lt hworker (by rw [hpeer]; rfl) (by simp [hpeer, rank])
    · rename_i other hother
      split
      · have hlt : peer < crew.workers.size := (Array.getElem?_eq_some_iff.1 hother).1
        refine measure_enterPhase_lt hworker (by rw [hpeer]; rfl) ?_
        simp only [hpeer, rank]
        omega
      · rename_i index others hqueue
        obtain ⟨queue, hrobbed⟩ := getElem?_rob hworker peer (batch + 1)
        exact measure_take_lt hrobbed (by rw [hpeer]; rfl) (size_update _ _ _)
          (movesLeft_rob _ _ _) (waiting_rob hother hqueue batch)
  · rename_i index others hcarry
    exact measure_give_lt hworker hcarry
  · rename_i index hstart
    rw [measure_perform]
    exact measure_enterPhase_lt hworker (by rw [hstart]; rfl) (by simp [hstart, rank])

theorem mem_present {crew : Crew β} {worker : Worker} {place : Nat} :
    (worker, place) ∈ crew.present ↔
      crew.workers[place]? = some worker ∧ worker.phase ≠ .gone := by
  simp [present, List.mem_zipIdx_iff_getElem?]

/-- Every worker that is left can be the next one to move, whichever moved last, and no other. -/
theorem exists_choose?_iff {crew : Crew β} {worker : Worker} {place : Nat} (last : Nat) :
    (∃ ahead, crew.choose? last ahead = some (worker, place)) ↔
      (worker, place) ∈ crew.present := by
  constructor
  · rintro ⟨ahead, hchoose⟩
    simp only [choose?] at hchoose
    split at hchoose
    · contradiction
    · rename_i chosen hchosen
      split at hchoose
      · exact List.mem_of_head? hchoose
      · rename_i hphase
        cases hchoose
        exact mem_present.2 ⟨hchosen, hphase⟩
  · intro hpresent
    obtain ⟨hworker, hphase⟩ := mem_present.1 hpresent
    obtain ⟨hlt, -⟩ := Array.getElem?_eq_some_iff.1 hworker
    have hle : last + 1 ≤ crew.workers.size * (last + 1) :=
      Nat.le_mul_of_pos_left _ (Nat.zero_lt_of_lt hlt)
    have hturn : last + (place + crew.workers.size * (last + 1) - last) =
        place + crew.workers.size * (last + 1) := by
      omega
    refine ⟨place + crew.workers.size * (last + 1) - last, ?_⟩
    simp only [choose?, hturn, Nat.add_mul_mod_self_left, Nat.mod_eq_of_lt hlt, hworker, hphase,
      if_false]

theorem choose?_eq_none_iff {crew : Crew β} {last ahead : Nat} :
    crew.choose? last ahead = none ↔ crew.present = [] := by
  simp only [choose?]
  split
  · rename_i hnone
    have houtside := Array.getElem?_eq_none_iff.1 hnone
    have hempty : crew.workers.size = 0 :=
      (Nat.eq_zero_or_pos _).resolve_right fun hsize =>
        Nat.not_lt_of_ge houtside (Nat.mod_lt _ hsize)
    simp [present, Array.eq_empty_of_size_eq_zero hempty]
  · rename_i worker hworker
    split
    · exact List.head?_eq_none_iff
    · rename_i hphase
      simpa using List.ne_nil_of_mem (mem_present.2 ⟨hworker, hphase⟩)

/-- Lets the workers move by the schedule until all are gone. -/
def operate (schedule : Schedule) (poll : σ → Bool × σ) (f : α → σ → β × σ) (items : Array α)
    (time last : Nat) (crew : Crew β) (state : σ) : Crew β × σ :=
  match _hchoose : crew.choose? last (schedule time).ahead with
  | none => (crew, state)
  | some (worker, place) =>
      let moved := move poll f items crew worker place (schedule time).batch state
      operate schedule poll f items (time + 1) place moved.1 moved.2
termination_by crew.measure
decreasing_by
  obtain ⟨hworker, hphase⟩ := mem_present.1 ((exists_choose?_iff last).1 ⟨_, _hchoose⟩)
  exact measure_move_lt poll f items hworker hphase _ _

def outcome (crew : Crew β) (count : Nat) : List (Option β) :=
  (List.range count).map fun index => crew.results.lookup index

end Crew

/-- What became of the members of a list: a result for each one that was started. -/
structure Mapped (β : Type) where
  results : List (Option β)
  started : Nat

/-- Applies the function to one member after another, asking before each whether to stop. -/
def mapInline {α β σ : Type} (poll : σ → Bool × σ) (f : α → σ → β × σ) :
    List α → σ → Mapped β × σ
  | [], state => (⟨[], 0⟩, state)
  | item :: items, state =>
      match poll state with
      | (true, next) =>
          let (mapped, last) := mapInline poll f items next
          (⟨none :: mapped.results, mapped.started⟩, last)
      | (false, next) =>
          let (result, later) := f item next
          let (mapped, last) := mapInline poll f items later
          (⟨some result :: mapped.results, mapped.started + 1⟩, last)

structure Pool where
  threads : Nat
  batches : Nat := 0
  tasks : Nat := 0

namespace Pool

variable {α β σ : Type}

def create (threads : Nat) : Pool := { threads := max threads 1 }

/-- One thread, or at most one member, needs no crew. -/
def mapItems (threads : Nat) (schedule : Schedule) (poll : σ → Bool × σ) (f : α → σ → β × σ)
    (items : List α) (state : σ) : Mapped β × σ :=
  if threads ≤ 1 || items.length ≤ 1 then mapInline poll f items state
  else
    let crew := Crew.start β threads items.length
    let (finished, last) := crew.operate schedule poll f items.toArray 0 0 state
    (⟨finished.outcome items.length, finished.results.length⟩, last)

/-- The results in the order of the members; a member that was not started has none. -/
def map (pool : Pool) (schedule : Schedule) (poll : σ → Bool × σ) (f : α → σ → β × σ)
    (items : List α) (state : σ) : List (Option β) × Pool × σ :=
  let (mapped, last) := mapItems pool.threads schedule poll f items state
  (mapped.results,
    { pool with batches := pool.batches + 1, tasks := pool.tasks + mapped.started }, last)

end Pool

end SymbolicRewriting
