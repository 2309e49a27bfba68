import SymbolicRewriting.Machine.State

/-!
Taking runs apart. A run that succeeds is a chain of steps that all succeed (`bind_eq_ok`), so a
property of its value follows from properties of the values of its steps (`Ensures.bind`).
-/

namespace SymbolicRewriting.Run

variable {σ α β : Type}

theorem pure_eq_ok {value result : α} {start next : RunState σ} :
    (pure value : Run σ α) start = .ok result next ↔ value = result ∧ start = next := by
  constructor
  · rintro ⟨⟩
    exact ⟨rfl, rfl⟩
  · rintro ⟨rfl, rfl⟩
    rfl

theorem bind_of_ok {run : Run σ α} {start next : RunState σ} {value : α}
    (hrun : run start = .ok value next) (continuation : α → Run σ β) :
    (run >>= continuation) start = continuation value next := by
  change EStateM.bind run continuation start = _
  rw [EStateM.bind, hrun]

theorem bind_of_error {run : Run σ α} {start next : RunState σ} {error : RewriteError}
    (hrun : run start = .error error next) (continuation : α → Run σ β) :
    (run >>= continuation) start = .error error next := by
  change EStateM.bind run continuation start = _
  rw [EStateM.bind, hrun]

theorem bind_eq_ok {run : Run σ α} {continuation : α → Run σ β} {start next : RunState σ}
    {result : β} :
    (run >>= continuation) start = .ok result next ↔
      ∃ value between, run start = .ok value between ∧
        continuation value between = .ok result next := by
  change EStateM.bind run continuation start = _ ↔ _
  unfold EStateM.bind
  constructor
  · intro hrun
    split at hrun
    · exact ⟨_, _, by assumption, hrun⟩
    · cases hrun
  · rintro ⟨value, between, hfirst, hsecond⟩
    rw [hfirst]
    exact hsecond

theorem bind_eq_error {run : Run σ α} {continuation : α → Run σ β} {start next : RunState σ}
    {error : RewriteError} :
    (run >>= continuation) start = .error error next ↔
      run start = .error error next ∨ ∃ value between, run start = .ok value between ∧
        continuation value between = .error error next := by
  change EStateM.bind run continuation start = _ ↔ _
  unfold EStateM.bind
  cases run start with
  | ok value between =>
      constructor
      · exact fun hrun => .inr ⟨value, between, rfl, hrun⟩
      · rintro (hfirst | ⟨_, _, hfirst, hsecond⟩)
        · cases hfirst
        · cases hfirst
          exact hsecond
  | error failure between =>
      constructor
      · rintro ⟨⟩
        exact .inl rfl
      · rintro (hfirst | ⟨_, _, hfirst, -⟩)
        · cases hfirst
          rfl
        · cases hfirst

theorem map_eq_ok {run : Run σ α} {f : α → β} {start next : RunState σ} {value : α}
    (hrun : run start = .ok value next) : (f <$> run) start = .ok (f value) next := by
  rw [map_eq_pure_bind, bind_of_ok hrun]
  rfl

theorem map_eq_error {run : Run σ α} {f : α → β} {start next : RunState σ} {error : RewriteError}
    (hrun : run start = .error error next) : (f <$> run) start = .error error next := by
  rw [map_eq_pure_bind, bind_of_error hrun]

theorem map_congr {run run' : Run σ α} {f : α → β} {start start' : RunState σ}
    (hsame : run start = run' start') : (f <$> run) start = (f <$> run') start' := by
  cases hrun : run' start' with
  | ok value next => rw [map_eq_ok (hsame.trans hrun), map_eq_ok hrun]
  | error error next => rw [map_eq_error (hsame.trans hrun), map_eq_error hrun]

/-- Does the run succeed with a value that passes the test? -/
def succeedsWith (run : Run σ α) (start : RunState σ) (test : α → Bool) : Bool :=
  match run start with
  | .ok value _ => test value
  | .error _ _ => false

theorem exists_of_succeedsWith {run : Run σ α} {start : RunState σ} {test : α → Bool}
    (hsucceeds : run.succeedsWith start test = true) :
    ∃ value next, run start = .ok value next ∧ test value = true := by
  unfold succeedsWith at hsucceeds
  split at hsucceeds
  · exact ⟨_, _, by assumption, hsucceeds⟩
  · cases hsucceeds

/-- From whatever state it starts, a run either fails or ends with a value that satisfies
`post`. -/
def Ensures (run : Run σ α) (post : α → Prop) : Prop :=
  ∀ start value next, run start = .ok value next → post value

namespace Ensures

theorem of_pure {post : α → Prop} {value : α} (hpost : post value) :
    Ensures (pure value : Run σ α) post := by
  intro start result next hrun
  obtain ⟨rfl, -⟩ := pure_eq_ok.1 hrun
  exact hpost

theorem bind {run : Run σ α} {continuation : α → Run σ β} {middle : α → Prop} {post : β → Prop}
    (hfirst : run.Ensures middle) (hsecond : ∀ value, middle value → (continuation value).Ensures post) :
    (run >>= continuation).Ensures post := by
  intro start result next hrun
  obtain ⟨value, between, hvalue, hresult⟩ := bind_eq_ok.1 hrun
  exact hsecond value (hfirst start value between hvalue) between result next hresult

theorem bind_of_forall {run : Run σ α} {continuation : α → Run σ β} {post : β → Prop}
    (hsecond : ∀ value, (continuation value).Ensures post) : (run >>= continuation).Ensures post :=
  have hfirst : run.Ensures fun _ => True := fun _ _ _ _ => True.intro
  hfirst.bind fun value _ => hsecond value

theorem mono {run : Run σ α} {post weaker : α → Prop} (hrun : run.Ensures post)
    (himp : ∀ value, post value → weaker value) : run.Ensures weaker :=
  fun start value next hvalue => himp value (hrun start value next hvalue)

end Ensures

end SymbolicRewriting.Run
