import Mathlib.Data.List.Nodup
import SymbolicRewriting.Pool

/-!
The pool loses no member of a list and repeats none. Each index is at every moment in one place: in
the shared queue, with one worker, or among those whose member the function has been called for. A
worker that was not told to stop leaves only when the shared queue is empty, and leaves its own
queue empty. So the calls are for different members, whichever worker moves when, and if no worker
was told to stop, there is a call for each.
-/

namespace SymbolicRewriting

variable {α β σ : Type}

/-- A pool reads the state to know whether to stop, and calls its function, which may change the
state, for the member with an index. -/
inductive PoolEvent (β : Type) where
  | polled (stop : Bool)
  | called (index : Nat) (result : β)

namespace PoolEvent

def call? : PoolEvent β → Option (Nat × β)
  | .polled _ => none
  | .called index result => some (index, result)

/-- The calls among the events. -/
def calls (events : List (PoolEvent β)) : List (Nat × β) :=
  events.filterMap call?

def calledIndices (events : List (PoolEvent β)) : List Nat :=
  (calls events).map Prod.fst

@[simp]
theorem calls_nil : calls ([] : List (PoolEvent β)) = [] :=
  rfl

@[simp]
theorem calls_polled (stop : Bool) (events : List (PoolEvent β)) :
    calls (.polled stop :: events) = calls events :=
  rfl

@[simp]
theorem calls_called (index : Nat) (result : β) (events : List (PoolEvent β)) :
    calls (.called index result :: events) = (index, result) :: calls events :=
  rfl

@[simp]
theorem calls_append (events more : List (PoolEvent β)) :
    calls (events ++ more) = calls events ++ calls more :=
  List.filterMap_append

/-- The events lead from one state to another, each from the state that the one before it has
left. -/
inductive Trace (poll : σ → Bool × σ) (f : α → σ → β × σ) (items : Array α) :
    σ → List (PoolEvent β) → σ → Prop where
  | nil (state : σ) : Trace poll f items state [] state
  | polled {state last : σ} {events : List (PoolEvent β)} :
      Trace poll f items (poll state).2 events last →
      Trace poll f items state (.polled (poll state).1 :: events) last
  | called {state last : σ} {index : Nat} {item : α} {events : List (PoolEvent β)} :
      items[index]? = some item → Trace poll f items (f item state).2 events last →
      Trace poll f items state (.called index (f item state).1 :: events) last

section
variable {poll : σ → Bool × σ} {f : α → σ → β × σ} {items : Array α} {state middle last : σ}
  {events more : List (PoolEvent β)}

theorem Trace.append (hfirst : Trace poll f items state events middle)
    (hsecond : Trace poll f items middle more last) :
    Trace poll f items state (events ++ more) last := by
  induction hfirst with
  | nil state => exact hsecond
  | polled _ ih => exact .polled (ih hsecond)
  | called hitem _ ih => exact .called hitem (ih hsecond)

theorem Trace.of_poll {stop : Bool} (hpoll : poll state = (stop, middle))
    (htrace : Trace poll f items middle events last) :
    Trace poll f items state (.polled stop :: events) last := by
  have hpolled : Trace poll f items state (.polled (poll state).1 :: events) last :=
    .polled (by rwa [hpoll])
  rwa [hpoll] at hpolled

/-- A call gives what the function makes of the member in some state. -/
theorem Trace.exists_of_mem_calls (htrace : Trace poll f items state events last) {index : Nat}
    {result : β} (hcall : (index, result) ∈ calls events) :
    ∃ item before, items[index]? = some item ∧ (f item before).1 = result := by
  induction htrace with
  | nil state => cases hcall
  | polled _ ih => exact ih hcall
  | @called state _ called item _ hitem _ ih =>
      rcases List.mem_cons.1 hcall with hnew | hold
      · obtain ⟨rfl, rfl⟩ := Prod.mk.inj hnew
        exact ⟨item, state, hitem, rfl⟩
      · exact ih hold

/-- Where what the function relies on is kept and nobody is told to stop, every call relies on it. -/
theorem Trace.relies {fine : σ → Prop}
    (hpoll : ∀ state, fine state → (poll state).1 = false ∧ fine (poll state).2)
    (hf : ∀ item state, fine state → fine (f item state).2)
    (htrace : Trace poll f items state events last) (hstate : fine state) :
    fine last ∧ .polled true ∉ events ∧ ∀ index result, (index, result) ∈ calls events →
      ∃ item before, items[index]? = some item ∧ fine before ∧ (f item before).1 = result := by
  induction htrace with
  | nil state => exact ⟨hstate, List.not_mem_nil, fun index result hcall => by cases hcall⟩
  | @polled state _ _ _ ih =>
      obtain ⟨hgoing, hpolled⟩ := hpoll state hstate
      obtain ⟨hlast, hnever, hcalls⟩ := ih hpolled
      refine ⟨hlast, ?_, hcalls⟩
      rw [hgoing]
      simpa using hnever
  | @called state _ called item _ hitem _ ih =>
      obtain ⟨hlast, hnever, hcalls⟩ := ih (hf item state hstate)
      refine ⟨hlast, by simpa using hnever, fun index result hcall => ?_⟩
      rcases List.mem_cons.1 hcall with hnew | hold
      · obtain ⟨rfl, rfl⟩ := Prod.mk.inj hnew
        exact ⟨item, state, hitem, hstate, rfl⟩
      · exact hcalls index result hold

end

end PoolEvent

open PoolEvent

/-- The indices that a worker has taken and not put into its queue. -/
def WorkerPhase.held : WorkerPhase → List Nat
  | .carry index others => index :: others
  | .start index => [index]
  | _ => []

def Worker.indices (worker : Worker) : List Nat :=
  worker.phase.held ++ worker.queue

namespace Crew

/-- How often an index waits in the shared queue or with a worker. -/
def occurrences (crew : Crew β) (index : Nat) : Nat :=
  crew.shared.count index + total (fun worker => worker.indices.count index) crew.workers.toList

theorem occurrences_update {crew : Crew β} {place : Nat} {worker : Worker}
    (hworker : crew.workers[place]? = some worker) (change : Worker → Worker) (index : Nat) :
    (crew.update place change).occurrences index + worker.indices.count index =
      crew.occurrences index + (change worker).indices.count index := by
  have := total_modify (getElem?_toList_workers hworker)
    (fun worker => worker.indices.count index) change
  simp only [occurrences, update, Array.toList_modify]
  omega

theorem le_occurrences {crew : Crew β} {place : Nat} {worker : Worker}
    (hworker : crew.workers[place]? = some worker) (index : Nat) :
    worker.indices.count index ≤ crew.occurrences index := by
  have := occurrences_update hworker (fun _ => { phase := .gone }) index
  simp only [Worker.indices, WorkerPhase.held, List.append_nil, List.count_nil] at this ⊢
  omega

theorem occurrences_enterPhase {crew : Crew β} {place : Nat} {worker : Worker}
    (hworker : crew.workers[place]? = some worker) (hheld : worker.phase.held = [])
    (phase : WorkerPhase) (index : Nat) :
    (crew.enterPhase place phase).occurrences index =
      crew.occurrences index + phase.held.count index := by
  have hphase := occurrences_update hworker (fun worker => { worker with phase }) index
  simp only [Worker.indices, hheld, List.nil_append, List.count_append] at hphase
  simp only [enterPhase]
  omega

theorem count_take_add_count_drop (indices : List Nat) (batch index : Nat) :
    (indices.take batch).count index + (indices.drop batch).count index = indices.count index := by
  rw [← List.count_append, List.take_append_drop]

theorem occurrences_rob {crew : Crew β} {place first : Nat} {worker : Worker} {others : List Nat}
    (hworker : crew.workers[place]? = some worker) (hqueue : worker.queue = first :: others)
    (batch index : Nat) :
    (crew.rob place (batch + 1)).occurrences index + (first :: others.take batch).count index =
      crew.occurrences index := by
  have hrobbed := occurrences_update hworker
    (fun worker => { worker with queue := worker.queue.drop (batch + 1) }) index
  have hparts := count_take_add_count_drop others batch index
  simp only [Worker.indices, hqueue, List.drop_succ_cons, List.count_append,
    List.count_cons] at hrobbed
  simp only [rob, List.count_cons]
  omega

theorem occurrences_give {crew : Crew β} {place first : Nat} {others : List Nat} {worker : Worker}
    (hworker : crew.workers[place]? = some worker) (hphase : worker.phase = .carry first others)
    (index : Nat) : (crew.give place first others).occurrences index = crew.occurrences index := by
  have hgiven := occurrences_update hworker
    (fun worker => { phase := .start first, queue := worker.queue ++ others }) index
  simp only [Worker.indices, hphase, WorkerPhase.held, List.count_append, List.count_cons,
    List.count_nil] at hgiven
  simp only [give]
  omega

/-- A worker that has found nothing in its own queue has nothing left, and one that has found
nothing in the shared queue either has left nothing there. -/
def Spent (shared : List Nat) (worker : Worker) : Prop :=
  match worker.phase with
  | .shared => worker.queue = []
  | .peer _ | .gone => worker.queue = [] ∧ shared = []
  | _ => True

theorem Spent.mono {shared others : List Nat} {worker : Worker} (hspent : Spent shared worker)
    (hshared : shared = [] → others = []) : Spent others worker := by
  unfold Spent at hspent ⊢
  split <;> simp_all

/-- No worker has left anything behind. -/
def Thorough (crew : Crew β) : Prop :=
  ∀ worker ∈ crew.workers, Spent crew.shared worker

theorem Thorough.update {crew : Crew β} (hcrew : crew.Thorough) {place : Nat}
    {change : Worker → Worker}
    (hchange : ∀ worker, crew.workers[place]? = some worker → Spent crew.shared (change worker)) :
    (crew.update place change).Thorough := by
  intro changed hmem
  obtain ⟨other, hother⟩ := Array.mem_iff_getElem?.1 hmem
  simp only [Crew.update, Array.getElem?_modify] at hother
  split at hother
  · rename_i hplace
    subst hplace
    obtain ⟨worker, hworker, rfl⟩ := Option.map_eq_some_iff.1 hother
    exact hchange worker hworker
  · exact hcrew changed (Array.mem_of_getElem? hother)

theorem Thorough.enterPhase {crew : Crew β} (hcrew : crew.Thorough) {place : Nat}
    {phase : WorkerPhase}
    (hphase : ∀ worker, crew.workers[place]? = some worker →
      Spent crew.shared { worker with phase }) : (crew.enterPhase place phase).Thorough :=
  hcrew.update hphase

theorem Thorough.rob {crew : Crew β} (hcrew : crew.Thorough) (place count : Nat) :
    (crew.rob place count).Thorough := by
  refine hcrew.update fun worker hworker => ?_
  have hspent := hcrew worker (Array.mem_of_getElem? hworker)
  unfold Spent at hspent ⊢
  dsimp only
  split <;> simp_all

/-- What the events make of a crew and a state. -/
structure Follows (poll : σ → Bool × σ) (f : α → σ → β × σ) (items : Array α) (crew : Crew β)
    (state : σ) (events : List (PoolEvent β)) (later : Crew β) (last : σ) : Prop where
  trace : Trace poll f items state events last
  size : later.workers.size = crew.workers.size
  results : later.results = (calls events).reverse ++ crew.results
  occurrences : ∀ index,
    later.occurrences index + (calledIndices events).count index = crew.occurrences index
  thorough : .polled true ∉ events → crew.Thorough → later.Thorough

section
variable {poll : σ → Bool × σ} {f : α → σ → β × σ} {items : Array α} {crew middle later : Crew β}
  {state between last : σ} {events more : List (PoolEvent β)}

theorem Follows.quiet (hsize : later.workers.size = crew.workers.size)
    (hresults : later.results = crew.results)
    (hoccurrences : ∀ index, later.occurrences index = crew.occurrences index)
    (hthorough : crew.Thorough → later.Thorough) :
    Follows poll f items crew state [] later state where
  trace := .nil state
  size := hsize
  results := hresults
  occurrences := hoccurrences
  thorough _ := hthorough

theorem Follows.trans (hfirst : Follows poll f items crew state events middle between)
    (hsecond : Follows poll f items middle between more later last) :
    Follows poll f items crew state (events ++ more) later last where
  trace := hfirst.trace.append hsecond.trace
  size := hsecond.size.trans hfirst.size
  results := by
    rw [hsecond.results, hfirst.results, calls_append, List.reverse_append, List.append_assoc]
  occurrences index := by
    have hmiddle := hfirst.occurrences index
    have hlater := hsecond.occurrences index
    simp only [calledIndices, calls_append, List.map_append, List.count_append] at hmiddle hlater ⊢
    omega
  thorough hstop hcrew := by
    simp only [List.mem_append, not_or] at hstop
    exact hsecond.thorough hstop.2 (hfirst.thorough hstop.1 hcrew)

/-- Every index that waits is one of a member. -/
def Within (items : Array α) (crew : Crew β) : Prop :=
  ∀ index, crew.occurrences index ≠ 0 → index < items.size

theorem Follows.within (hfollows : Follows poll f items crew state events later last)
    (hcrew : crew.Within items) : later.Within items := by
  intro index hindex
  refine hcrew index ?_
  have := hfollows.occurrences index
  omega

/-- A worker enters a phase, perhaps with indices that have been taken from the crew. -/
theorem Follows.enterPhase {robbed : Crew β} {place : Nat} {worker : Worker} {phase : WorkerPhase}
    (hworker : robbed.workers[place]? = some worker) (hheld : worker.phase.held = [])
    (hsize : robbed.workers.size = crew.workers.size) (hresults : robbed.results = crew.results)
    (hoccurrences : ∀ index,
      robbed.occurrences index + phase.held.count index = crew.occurrences index)
    (hthorough : crew.Thorough → robbed.Thorough)
    (hspent : Spent robbed.shared worker → Spent robbed.shared { worker with phase }) :
    Follows poll f items crew state [] (robbed.enterPhase place phase) state := by
  refine .quiet ((size_update _ _ _).trans hsize) hresults (fun index => ?_) fun hcrew => ?_
  · rw [occurrences_enterPhase hworker hheld, hoccurrences]
  · refine (hthorough hcrew).update fun other hother => ?_
    obtain rfl := Option.some.inj (hworker.symm.trans hother)
    exact hspent (hthorough hcrew _ (Array.mem_of_getElem? hworker))

theorem Follows.search {place : Nat} {worker : Worker} {phase : WorkerPhase}
    (hworker : crew.workers[place]? = some worker) (hheld : worker.phase.held = [])
    (hnone : phase.held = [])
    (hspent : Spent crew.shared worker → Spent crew.shared { worker with phase }) :
    Follows poll f items crew state [] (crew.enterPhase place phase) state :=
  .enterPhase hworker hheld rfl rfl (fun index => by rw [hnone, List.count_nil, Nat.add_zero]) id hspent

/-- A worker has asked whether to stop. -/
theorem Follows.of_poll {place : Nat} {worker : Worker} {phase : WorkerPhase} {stop : Bool}
    {next : σ} (hpoll : poll state = (stop, next))
    (hworker : crew.workers[place]? = some worker) (hheld : worker.phase.held = [])
    (hnone : phase.held = [])
    (hspent : stop = false → Spent crew.shared { worker with phase }) :
    Follows poll f items crew state [.polled stop] (crew.enterPhase place phase) next where
  trace := .of_poll hpoll (.nil next)
  size := size_update _ _ _
  results := rfl
  occurrences index := by
    rw [occurrences_enterPhase hworker hheld, hnone]
    rfl
  thorough hstop hcrew := by
    refine hcrew.update fun other hother => ?_
    obtain rfl := Option.some.inj (hworker.symm.trans hother)
    cases stop with
    | true => simp at hstop
    | false => exact hspent rfl

theorem perform_of_getElem? {f : α → σ → β × σ} {items : Array α} {index : Nat} {item : α}
    (hitem : items[index]? = some item) (crew : Crew β) (state : σ) :
    perform f items index crew state =
      ({ crew with results := (index, (f item state).1) :: crew.results }, (f item state).2) := by
  simp only [perform, hitem]

/-- A worker calls the function for the member with the index that it has kept. -/
theorem Follows.of_start {place index : Nat} {worker : Worker}
    (hworker : crew.workers[place]? = some worker) (hphase : worker.phase = .start index)
    {item : α} (hitem : items[index]? = some item) :
    Follows poll f items crew state [.called index (f item state).1]
      (perform f items index (crew.enterPhase place .poll) state).1
      (perform f items index (crew.enterPhase place .poll) state).2 := by
  rw [perform_of_getElem? hitem]
  exact
    { trace := .called hitem (.nil _)
      size := size_update _ _ _
      results := rfl
      occurrences := fun other => by
        have hstarted := occurrences_update hworker
          (fun worker => { worker with phase := .poll }) other
        simp only [Worker.indices, hphase, WorkerPhase.held, List.count_append, List.nil_append]
          at hstarted
        change (crew.enterPhase place .poll).occurrences other + [index].count other = _
        simp only [Crew.enterPhase]
        omega
      thorough := fun _ hcrew worker hmem => by
        have hpolls : (crew.enterPhase place .poll).Thorough :=
          hcrew.enterPhase fun _ _ => trivial
        exact hpolls worker hmem }

theorem Follows.of_move (poll : σ → Bool × σ) (f : α → σ → β × σ) {worker : Worker} {place : Nat}
    (hworker : crew.workers[place]? = some worker) (hwithin : crew.Within items) (batch : Nat)
    (state : σ) :
    ∃ events, Follows poll f items crew state events
      (move poll f items crew worker place batch state).1
      (move poll f items crew worker place batch state).2 := by
  unfold move
  split
  · exact ⟨[], .quiet rfl rfl (fun _ => rfl) id⟩
  · rename_i hphase
    split
    · rename_i next hpoll
      exact ⟨_, .of_poll hpoll hworker (by rw [hphase]; rfl) rfl (by simp)⟩
    · rename_i next hpoll
      exact ⟨_, .of_poll hpoll hworker (by rw [hphase]; rfl) rfl fun _ => trivial⟩
  · rename_i hphase
    split
    · rename_i hqueue
      exact ⟨[], .search hworker (by rw [hphase]; rfl) rfl fun _ => hqueue⟩
    · rename_i index others hqueue
      obtain ⟨queue, hrobbed⟩ := getElem?_rob hworker place 1
      exact ⟨[], .enterPhase hrobbed (by rw [hphase]; rfl) (size_update _ _ _) rfl
        (occurrences_rob hworker hqueue 0)
        (fun hcrew => hcrew.rob place 1) fun _ => trivial⟩
  · rename_i hphase
    split
    · rename_i hshared
      refine ⟨[], .search hworker (by rw [hphase]; rfl) rfl fun hspent => ?_⟩
      unfold Spent at hspent
      rw [hphase] at hspent
      exact ⟨hspent, hshared⟩
    · rename_i index others hshared
      refine ⟨[], .enterPhase (by exact hworker) (by rw [hphase]; rfl) rfl rfl (fun other => ?_)
        (fun hcrew => ?_) fun _ => trivial⟩
      · have hparts := count_take_add_count_drop others batch other
        simp only [Crew.occurrences, hshared, WorkerPhase.held, List.count_cons]
        omega
      · exact fun worker hmem => (hcrew worker hmem).mono fun hnone => by simp [hshared] at hnone
  · rename_i peer hphase
    -- a worker that looks into the queues of its peers has found the others empty
    have hspent (hworker : Spent crew.shared worker) :
        worker.queue = [] ∧ crew.shared = [] := by
      unfold Spent at hworker
      rwa [hphase] at hworker
    split
    · exact ⟨[], .search hworker (by rw [hphase]; rfl) rfl hspent⟩
    · rename_i other hother
      split
      · exact ⟨[], .search hworker (by rw [hphase]; rfl) rfl hspent⟩
      · rename_i index others hqueue
        obtain ⟨queue, hrobbed⟩ := getElem?_rob hworker peer (batch + 1)
        exact ⟨[], .enterPhase hrobbed (by rw [hphase]; rfl) (size_update _ _ _) rfl
          (occurrences_rob hother hqueue batch) (fun hcrew => hcrew.rob peer (batch + 1))
          fun _ => trivial⟩
  · rename_i index others hphase
    exact ⟨[], .quiet (size_update _ _ _) rfl (occurrences_give hworker hphase) fun hcrew =>
      hcrew.update fun _ _ => trivial⟩
  · rename_i index hphase
    have hheld := le_occurrences hworker index
    have hlt : index < items.size := by
      refine hwithin index ?_
      simp only [Worker.indices, hphase, WorkerPhase.held, List.count_append,
        List.count_singleton_self] at hheld
      omega
    exact ⟨_, .of_start hworker hphase (Array.getElem?_eq_getElem hlt)⟩

theorem Follows.of_operate (schedule : Schedule) (poll : σ → Bool × σ) (f : α → σ → β × σ)
    (time last : Nat) {items : Array α} {crew : Crew β}
    (hwithin : crew.Within items) (state : σ) :
    ∃ events, Follows poll f items crew state events
      (operate schedule poll f items time last crew state).1
      (operate schedule poll f items time last crew state).2 := by
  fun_induction operate schedule poll f items time last crew state with
  | case1 time last crew state hchoose => exact ⟨[], .quiet rfl rfl (fun _ => rfl) id⟩
  | case2 time last crew state worker place hchoose moved ih =>
      obtain ⟨hworker, -⟩ := mem_present.1 ((exists_choose?_iff last).1 ⟨_, hchoose⟩)
      obtain ⟨first, hfirst⟩ := Follows.of_move poll f hworker hwithin
        (schedule time).batch state
      obtain ⟨more, hmore⟩ := ih (hfirst.within hwithin)
      exact ⟨first ++ more, hfirst.trans hmore⟩

theorem present_operate (schedule : Schedule) (poll : σ → Bool × σ) (f : α → σ → β × σ)
    (items : Array α) (time last : Nat) (crew : Crew β) (state : σ) :
    (operate schedule poll f items time last crew state).1.present = [] := by
  fun_induction operate schedule poll f items time last crew state with
  | case1 time last crew state hchoose => exact choose?_eq_none_iff.1 hchoose
  | case2 time last crew state worker place hchoose moved ih => exact ih

/-- The workers that have left a crew without leaving anything behind have left nothing in the
shared queue either, if there was one of them. -/
theorem Thorough.occurrences_eq_zero {crew : Crew β} (hcrew : crew.Thorough)
    (hpresent : crew.present = []) (hworkers : 0 < crew.workers.size) (index : Nat) :
    crew.occurrences index = 0 := by
  have hgone : ∀ worker ∈ crew.workers, worker.indices = [] ∧ crew.shared = [] := by
    intro worker hmem
    have hphase : worker.phase = .gone := by
      by_contra hphase
      obtain ⟨place, hplace⟩ := Array.mem_iff_getElem?.1 hmem
      have := mem_present.2 ⟨hplace, hphase⟩
      rw [hpresent] at this
      cases this
    have hspent := hcrew worker hmem
    unfold Spent at hspent
    rw [hphase] at hspent
    exact ⟨by rw [Worker.indices, hphase, hspent.1]; rfl, hspent.2⟩
  have hshared := (hgone crew.workers[0] (Array.getElem_mem hworkers)).2
  have hqueues : total (fun worker => worker.indices.count index) crew.workers.toList = 0 := by
    refine total_eq_zero fun worker hmem => ?_
    rw [(hgone worker (Array.mem_toList_iff.1 hmem)).1, List.count_nil]
  rw [occurrences, hshared, hqueues, List.count_nil]

theorem occurrences_start (β : Type) (threads count index : Nat) :
    (start β threads count).occurrences index = (List.range count).count index := by
  have hworkers : total (fun worker => worker.indices.count index)
      (start β threads count).workers.toList = 0 := by
    refine total_eq_zero fun worker hmem => ?_
    obtain ⟨-, rfl⟩ := Array.mem_replicate.1 (Array.mem_toList_iff.1 hmem)
    rfl
  rw [occurrences, hworkers]
  rfl

theorem thorough_start (β : Type) (threads count : Nat) : (start β threads count).Thorough := by
  intro worker hmem
  obtain ⟨-, rfl⟩ := Array.mem_replicate.1 hmem
  trivial

theorem lookup_eq_some_iff_mem {entries : List (Nat × β)}
    (hnodup : (entries.map Prod.fst).Nodup) {index : Nat} {result : β} :
    entries.lookup index = some result ↔ (index, result) ∈ entries := by
  induction entries with
  | nil => simp
  | cons entry entries ih =>
      obtain ⟨first, answer⟩ := entry
      obtain ⟨hfirst, hnodup⟩ := List.nodup_cons.1 hnodup
      by_cases hsame : index = first
      · subst hsame
        have hother : (index, result) ∉ entries := fun hmem =>
          hfirst (List.mem_map.2 ⟨_, hmem, rfl⟩)
        simp [hother, eq_comm]
      · rw [List.lookup_cons, beq_eq_false_iff_ne.2 hsame, List.mem_cons, ih hnodup]
        simp [hsame]

end

end Crew

namespace Pool

/-- The results of a list of so many members are those of the calls, each for another member. -/
structure Reports (count : Nat) (calls : List (Nat × β)) (results : List (Option β)) : Prop where
  length : results.length = count
  nodup : (calls.map Prod.fst).Nodup
  some_iff : ∀ index result, results[index]? = some (some result) ↔ (index, result) ∈ calls

section
variable {count : Nat} {calls : List (Nat × β)} {results : List (Option β)}

/-- The members without a result are those that the function has not been called for. -/
theorem Reports.none_iff (hreports : Reports count calls results) (index : Nat) :
    results[index]? = some none ↔ index < count ∧ index ∉ calls.map Prod.fst := by
  rw [← hreports.length, List.mem_map]
  constructor
  · intro hnone
    refine ⟨(List.getElem?_eq_some_iff.1 hnone).1, ?_⟩
    rintro ⟨⟨_, result⟩, hcall, rfl⟩
    rw [(hreports.some_iff _ _).2 hcall] at hnone
    cases hnone
  · rintro ⟨hlt, huncalled⟩
    rw [List.getElem?_eq_getElem hlt]
    cases hresult : results[index] with
    | none => rfl
    | some result =>
        refine absurd ⟨(index, result), (hreports.some_iff _ _).1 ?_, rfl⟩ huncalled
        rw [List.getElem?_eq_getElem hlt, hresult]

theorem nodup_of_count_le {indices : List Nat}
    (hcount : ∀ index, indices.count index ≤ (List.range count).count index) : indices.Nodup :=
  List.nodup_iff_count_le_one.2 fun index =>
    Nat.le_trans (hcount index) (List.nodup_iff_count_le_one.1 List.nodup_range index)

/-- A crew enters the results of its calls, the last one first. -/
theorem reports_outcome {crew : Crew β} (hresults : crew.results = calls.reverse)
    (hcalls : ∀ index, (calls.map Prod.fst).count index ≤ (List.range count).count index) :
    Reports count calls (crew.outcome count) where
  length := by simp [Crew.outcome]
  nodup := nodup_of_count_le hcalls
  some_iff index result := by
    have hnodup : (crew.results.map Prod.fst).Nodup := by
      rw [hresults, List.map_reverse, List.nodup_reverse]
      exact nodup_of_count_le hcalls
    have hlookup : crew.results.lookup index = some result ↔ (index, result) ∈ calls := by
      rw [Crew.lookup_eq_some_iff_mem hnodup, hresults, List.mem_reverse]
    rw [Crew.outcome, List.getElem?_map, ← hlookup]
    by_cases hlt : index < count
    · rw [List.getElem?_range hlt, Option.map_some, Option.some.injEq]
    · have hout : (List.range count)[index]? = none := by simpa using hlt
      have hnone : crew.results.lookup index ≠ some result := by
        rw [Ne, hlookup]
        intro hcall
        have hindex : index ∈ calls.map Prod.fst := List.mem_map.2 ⟨_, hcall, rfl⟩
        have := Nat.lt_of_lt_of_le (List.count_pos_iff.2 hindex) (hcalls index)
        exact hlt (List.mem_range.1 (List.count_pos_iff.1 this))
      simp [hout, hnone]

end

/-- The calls that results come from if they are made in the order of the members, from an index
on. -/
def entriesFrom (first : Nat) (results : List (Option β)) : List (Nat × β) :=
  (results.zipIdx first).filterMap fun (result?, index) => result?.map fun result => (index, result)

@[simp]
theorem entriesFrom_cons_none (first : Nat) (results : List (Option β)) :
    entriesFrom first (none :: results) = entriesFrom (first + 1) results :=
  rfl

@[simp]
theorem entriesFrom_cons_some (first : Nat) (result : β) (results : List (Option β)) :
    entriesFrom first (some result :: results) =
      (first, result) :: entriesFrom (first + 1) results :=
  rfl

theorem entriesFrom_indices_sublist (first : Nat) (results : List (Option β)) :
    ((entriesFrom first results).map Prod.fst).Sublist (List.range' first results.length) := by
  induction results generalizing first with
  | nil => exact .slnil
  | cons result? results ih =>
      cases result? with
      | none => exact (ih (first + 1)).cons first
      | some result => exact (ih (first + 1)).cons_cons first

theorem reports_entriesFrom (results : List (Option β)) :
    Reports results.length (entriesFrom 0 results) results where
  length := rfl
  nodup := (entriesFrom_indices_sublist 0 results).nodup List.nodup_range'
  some_iff index result := by
    simp only [entriesFrom, List.mem_filterMap, Prod.exists, List.mem_zipIdx_iff_getElem?,
      Option.map_eq_some_iff, Prod.mk.injEq]
    constructor
    · exact fun hresult => ⟨_, _, hresult, result, rfl, rfl, rfl⟩
    · rintro ⟨_, _, hresult, _, rfl, rfl, rfl⟩
      exact hresult

theorem mapInline_spec (poll : σ → Bool × σ) (f : α → σ → β × σ) {items before rest : List α}
    (hitems : items = before ++ rest) (state : σ) :
    ∃ events, Trace poll f items.toArray state events (mapInline poll f rest state).2 ∧
      (mapInline poll f rest state).1.results.length = rest.length ∧
      (mapInline poll f rest state).1.started = (calls events).length ∧
      calls events = entriesFrom before.length (mapInline poll f rest state).1.results ∧
      (.polled true ∉ events → none ∉ (mapInline poll f rest state).1.results) := by
  induction rest generalizing before state with
  | nil => exact ⟨[], .nil state, rfl, rfl, rfl, by simp [mapInline]⟩
  | cons item rest ih =>
      have hrest : items = (before ++ [item]) ++ rest := by simp [hitems]
      have hitem : items.toArray[before.length]? = some item := by simp [hitems]
      unfold mapInline
      split
      · rename_i next hpoll
        obtain ⟨events, htrace, hlength, hstarted, hcalls, -⟩ := ih hrest next
        refine ⟨.polled true :: events, .of_poll hpoll htrace, ?_, ?_, ?_, ?_⟩
        · simp [hlength]
        · simp [hstarted]
        · simpa using hcalls
        · simp
      · rename_i next hpoll
        obtain ⟨events, htrace, hlength, hstarted, hcalls, hnone⟩ := ih hrest (f item next).2
        refine ⟨.polled false :: .called before.length (f item next).1 :: events,
          .of_poll hpoll (.called hitem htrace), ?_, ?_, ?_, ?_⟩
        · simp [hlength]
        · simp [hstarted]
        · simpa using hcalls
        · intro hstop
          simpa using hnone fun hmem => hstop (by simp [hmem])

/-- The pool reports on calls that are made one after another. If it was never told to stop, every
member has a result. -/
theorem mapItems_spec (threads : Nat) (schedule : Schedule) (poll : σ → Bool × σ)
    (f : α → σ → β × σ) (items : List α) (state : σ) :
    ∃ events, Trace poll f items.toArray state events
        (mapItems threads schedule poll f items state).2 ∧
      Reports items.length (calls events)
        (mapItems threads schedule poll f items state).1.results ∧
      (mapItems threads schedule poll f items state).1.started = (calls events).length ∧
      (.polled true ∉ events →
        none ∉ (mapItems threads schedule poll f items state).1.results) := by
  unfold mapItems
  split
  · obtain ⟨events, htrace, hlength, hstarted, hcalls, hnone⟩ :=
      mapInline_spec poll f (List.nil_append items).symm state
    refine ⟨events, htrace, ?_, hstarted, hnone⟩
    rw [hcalls, ← hlength]
    exact reports_entriesFrom _
  · rename_i hmany
    simp only [Bool.or_eq_true, decide_eq_true_eq, not_or] at hmany
    have hwithin : (Crew.start β threads items.length).Within items.toArray := by
      intro index hindex
      rw [Crew.occurrences_start] at hindex
      simpa using List.mem_range.1 (List.count_pos_iff.1 (Nat.pos_of_ne_zero hindex))
    obtain ⟨events, hfollows⟩ := Crew.Follows.of_operate schedule poll f 0 0 hwithin state
    have hresults := hfollows.results
    have hcalls := hfollows.occurrences
    simp only [Crew.occurrences_start] at hcalls
    rw [show (Crew.start β threads items.length).results = [] from rfl, List.append_nil] at hresults
    have hreports : Reports items.length (calls events) _ :=
      reports_outcome hresults fun index => by
        rw [← hcalls index]
        exact Nat.le_add_left _ _
    refine ⟨events, hfollows.trace, hreports, by simp [hresults], fun hstop hnone => ?_⟩
    obtain ⟨index, hindex⟩ := List.mem_iff_getElem?.1 hnone
    obtain ⟨hlt, huncalled⟩ := (hreports.none_iff index).1 hindex
    have hthorough := hfollows.thorough hstop (Crew.thorough_start β threads items.length)
    have hsize : 0 < (Crew.operate schedule poll f items.toArray 0 0
        (Crew.start β threads items.length) state).1.workers.size := by
      rw [hfollows.size, Crew.start, Array.size_replicate]
      omega
    have hzero := hthorough.occurrences_eq_zero (Crew.present_operate _ _ _ _ _ _ _ _)
      hsize index
    have hcall := hcalls index
    rw [hzero, calledIndices, List.count_eq_zero.2 huncalled] at hcall
    exact absurd (List.mem_range.2 hlt) (List.count_eq_zero.1 hcall.symm)

theorem mapItems_meets (meets : α → β → Prop) (threads : Nat) (schedule : Schedule)
    (poll : σ → Bool × σ) {f : α → σ → β × σ} (hf : ∀ item state, meets item (f item state).1)
    (items : List α) (state : σ) :
    ∀ item result,
      (item, some result) ∈
        items.zip (mapItems threads schedule poll f items state).1.results →
      meets item result := by
  intro item result hmem
  obtain ⟨events, htrace, hreports, -⟩ := mapItems_spec threads schedule poll f items state
  obtain ⟨index, hindex⟩ := List.mem_iff_getElem?.1 hmem
  obtain ⟨hitem, hresult⟩ := List.getElem?_zip_eq_some.1 hindex
  obtain ⟨other, before, hother, rfl⟩ :=
    htrace.exists_of_mem_calls ((hreports.some_iff index result).1 hresult)
  obtain rfl : item = other := by
    rw [List.getElem?_toArray] at hother
    exact Option.some.inj (hitem.symm.trans hother)
  exact hf item before

/-- If the pool is never told to stop, each member has a result, by a call that could rely on what
all calls keep. -/
theorem mapItems_relies {fine : σ → Prop} {poll : σ → Bool × σ} {f : α → σ → β × σ}
    (hpoll : ∀ state, fine state → (poll state).1 = false ∧ fine (poll state).2)
    (hf : ∀ item state, fine state → fine (f item state).2) (threads : Nat) (schedule : Schedule)
    (items : List α) {state : σ} (hstate : fine state) :
    fine (mapItems threads schedule poll f items state).2 ∧
      List.Forall₂ (fun item result => ∃ before, fine before ∧ result = some (f item before).1) items
        (mapItems threads schedule poll f items state).1.results := by
  obtain ⟨events, htrace, hreports, -, hnone⟩ := mapItems_spec threads schedule poll f items state
  obtain ⟨hlast, hnever, hcalls⟩ := htrace.relies hpoll hf hstate
  refine ⟨hlast, List.forall₂_iff_get.2 ⟨hreports.length.symm, fun index hitem hresult => ?_⟩⟩
  cases hentry : (mapItems threads schedule poll f items state).1.results.get ⟨index, hresult⟩ with
  | none => exact absurd (hentry ▸ List.get_mem _ _) (hnone hnever)
  | some result =>
      have hcall : (index, result) ∈ calls events := by
        refine (hreports.some_iff index result).1 ?_
        rw [← hentry]
        exact List.getElem?_eq_getElem hresult
      obtain ⟨item, before, hat, hbefore, rfl⟩ := hcalls index result hcall
      obtain rfl : items.get ⟨index, hitem⟩ = item := by
        rw [List.getElem?_toArray, List.getElem?_eq_getElem hitem] at hat
        exact Option.some.inj hat
      exact ⟨before, hbefore, rfl⟩

/-- Whichever worker moves when, and whatever the state answers: no member is started twice, a
member without a result was never started, and a result is what the function has made of its own
member. If the pool was never told to stop, it has called the function once for each member. -/
theorem map_exactly_once (pool : Pool) (schedule : Schedule) (poll : σ → Bool × σ)
    (f : α → σ → β × σ) (items : List α) (state : σ) :
    ∃ events, Trace poll f items.toArray state events (pool.map schedule poll f items state).2.2 ∧
      (pool.map schedule poll f items state).1.length = items.length ∧
      (pool.map schedule poll f items state).2.1 =
        { pool with
          batches := pool.batches + 1
          tasks := pool.tasks + (calledIndices events).length } ∧
      (calledIndices events).Nodup ∧
      (∀ index, (pool.map schedule poll f items state).1[index]? = some none ↔
        index < items.length ∧ index ∉ calledIndices events) ∧
      (∀ (index : Nat) (result : β),
        (pool.map schedule poll f items state).1[index]? = some (some result) →
        ∃ item before, items[index]? = some item ∧ (f item before).1 = result) ∧
      (.polled true ∉ events → (calledIndices events).Perm (List.range items.length) ∧
        (pool.map schedule poll f items state).2.1.tasks = pool.tasks + items.length ∧
        ∀ value : α → β, (∀ item before, (f item before).1 = value item) →
          (pool.map schedule poll f items state).1 = items.map fun item => some (value item)) := by
  obtain ⟨events, htrace, hreports, hstarted, hnone⟩ :=
    mapItems_spec pool.threads schedule poll f items state
  have hcalled (index : Nat) (result : β)
      (hresult : (pool.map schedule poll f items state).1[index]? = some (some result)) :
      ∃ item before, items[index]? = some item ∧ (f item before).1 = result := by
    simpa using htrace.exists_of_mem_calls ((hreports.some_iff index result).1 hresult)
  have hpool : (pool.map schedule poll f items state).2.1 =
      { pool with
        batches := pool.batches + 1
        tasks := pool.tasks + (calledIndices events).length } := by
    rw [calledIndices, List.length_map, ← hstarted]
    rfl
  refine ⟨events, htrace, hreports.length, hpool, hreports.nodup, hreports.none_iff, hcalled,
    fun hstop => ?_⟩
  have hperm : (calledIndices events).Perm (List.range items.length) := by
    refine (List.perm_ext_iff_of_nodup hreports.nodup List.nodup_range).2 fun index => ?_
    rw [List.mem_range]
    constructor
    · intro hindex
      obtain ⟨⟨_, result⟩, hcall, rfl⟩ := List.mem_map.1 hindex
      have hresult := (hreports.some_iff _ _).2 hcall
      exact hreports.length ▸ (List.getElem?_eq_some_iff.1 hresult).1
    · intro hlt
      by_contra hindex
      exact hnone hstop (List.mem_of_getElem? ((hreports.none_iff index).2 ⟨hlt, hindex⟩))
  refine ⟨hperm, by rw [hpool, hperm.length_eq, List.length_range], fun value hvalue => ?_⟩
  refine List.ext_getElem (by rw [List.length_map]; exact hreports.length) fun index hlt _ => ?_
  cases hresult : (pool.map schedule poll f items state).1[index] with
  | none => exact absurd (hresult ▸ List.getElem_mem hlt) (hnone hstop)
  | some result =>
      obtain ⟨item, before, hitem, rfl⟩ := hcalled index result
        (by rw [List.getElem?_eq_getElem hlt, hresult])
      obtain ⟨hin, rfl⟩ := List.getElem?_eq_some_iff.1 hitem
      rw [List.getElem_map, hvalue]

end Pool

end SymbolicRewriting
