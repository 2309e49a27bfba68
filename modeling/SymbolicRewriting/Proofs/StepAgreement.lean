import SymbolicRewriting.Oracle.Silent
import SymbolicRewriting.Proofs.Compositional
import SymbolicRewriting.Proofs.EqualSteps

/-!
# A step, all steps and symbolic steps

The first applicable rule, the list of all successors and a symbolic step are found by separate loops,
which do the same as far as they go. A single step takes the first of the successors, and on a ground
term whose conditions all come to truth values a symbolic step takes all of them under no condition.
The loops count different things, but nothing that a machine does depends on what has been counted.
-/

namespace SymbolicRewriting

open List

variable {σ α β : Type}

/-- The states differ at most in what has been counted, and in whether a search is to stop. -/
structure RunState.SameCounters (left right : RunState σ) : Prop where
  cellsDrawn : left.cellsDrawn = right.cellsDrawn
  counter : left.counter = right.counter
  environment : left.environment = right.environment

theorem RunState.SameCounters.trans {left middle right : RunState σ}
    (hleft : left.SameCounters middle) (hright : middle.SameCounters right) :
    left.SameCounters right where
  cellsDrawn := hleft.cellsDrawn.trans hright.cellsDrawn
  counter := hleft.counter.trans hright.counter
  environment := hleft.environment.trans hright.environment

namespace Run

/-- The same value or the same error, with the same counters. -/
inductive EndsSame :
    EStateM.Result RewriteError (RunState σ) α → EStateM.Result RewriteError (RunState σ) α → Prop
  | ok (value : α) {next next' : RunState σ} (hsame : next.SameCounters next') :
      EndsSame (.ok value next) (.ok value next')
  | error (error : RewriteError) {next next' : RunState σ} (hsame : next.SameCounters next') :
      EndsSame (.error error next) (.error error next')

/-- What the run does depends on the counters alone. -/
def Determined (run : Run σ α) : Prop :=
  ∀ start start', start.SameCounters start' → EndsSame (run start) (run start')

theorem Determined.exists_of_ok {run : Run σ α} (hrun : run.Determined)
    {start start' next : RunState σ} (hsame : start.SameCounters start') {value : α}
    (hvalue : run start = .ok value next) :
    ∃ next', run start' = .ok value next' ∧ next.SameCounters next' := by
  have hends := hrun start start' hsame
  rw [hvalue] at hends
  generalize run start' = result at hends
  cases hends with
  | ok _ hnext => exact ⟨_, rfl, hnext⟩

/-- Runs that end the same go on the same if their continuations do. -/
theorem EndsSame.bind {run run' : Run σ α} {continuation continuation' : α → Run σ β}
    {start start' : RunState σ} (hends : EndsSame (run start) (run' start'))
    (hcontinuation : ∀ value next next', next.SameCounters next' →
      EndsSame (continuation value next) (continuation' value next')) :
    EndsSame ((run >>= continuation) start) ((run' >>= continuation') start') := by
  generalize hfirst : run start = result at hends
  generalize hsecond : run' start' = result' at hends
  cases hends with
  | ok value hnext =>
      rw [bind_of_ok hfirst, bind_of_ok hsecond]
      exact hcontinuation value _ _ hnext
  | error error hnext =>
      rw [bind_of_error hfirst, bind_of_error hsecond]
      exact .error error hnext

theorem determined_bind {run : Run σ α} {continuation : α → Run σ β} (hrun : run.Determined)
    (hcontinuation : ∀ value, (continuation value).Determined) :
    (run >>= continuation).Determined :=
  fun start start' hsame => (hrun start start' hsame).bind hcontinuation

theorem determined_modifyGet {update : RunState σ → α × RunState σ}
    (hupdate : ∀ start start', start.SameCounters start' →
      (update start).1 = (update start').1 ∧ (update start).2.SameCounters (update start').2) :
    (MonadStateOf.modifyGet update : Run σ α).Determined := by
  intro start start' hsame
  obtain ⟨hvalue, hnext⟩ := hupdate start start' hsame
  change EndsSame (.ok (update start).1 (update start).2) (.ok (update start').1 (update start').2)
  rw [← hvalue]
  exact .ok _ hnext

theorem determined_record (update : Metrics → Metrics) :
    (record update : Run σ Unit).Determined :=
  determined_modifyGet fun _ _ hsame =>
    ⟨rfl, hsame.cellsDrawn, hsame.counter, hsame.environment⟩

theorem determined_drawCounter : (drawCounter : Run σ UInt64).Determined :=
  determined_modifyGet fun _ _ hsame =>
    ⟨hsame.counter, hsame.cellsDrawn, congrArg (· + 1) hsame.counter, hsame.environment⟩

theorem determined_drawCell : (drawCell : Run σ CellId).Determined :=
  determined_modifyGet fun _ _ hsame =>
    ⟨congrArg UInt32.ofNat hsame.cellsDrawn, congrArg (· + 1) hsame.cellsDrawn, hsame.counter,
      hsame.environment⟩

theorem determined_ask (question : σ → α × σ) : (ask question).Determined :=
  determined_modifyGet fun _ _ hsame =>
    ⟨congrArg (fun environment => (question environment).1) hsame.environment, hsame.cellsDrawn,
      hsame.counter, congrArg (fun environment => (question environment).2) hsame.environment⟩

theorem compositional_determined :
    Compositional (σ := σ) fun _ run => run.Determined where
  of_pure value := fun _ _ hsame => .ok value hsame
  of_throw error := fun _ _ hsame => .error error hsame
  bind := determined_bind
  drawCell := determined_drawCell
  drawToken := determined_bind determined_drawCounter fun _ =>
    determined_bind (determined_record _) fun _ => fun _ _ hsame => .ok _ hsame
  record update _ := determined_record update
  recordStep := determined_record _
  ask := determined_ask

end Run

namespace Machine

variable {machine : Machine σ} {rule : Rule} {subject : Term} {start start' next : RunState σ}

theorem condition_determined (rule : Rule) (subst : Substitution) :
    (machine.condition rule subst).Determined :=
  Run.compositional_determined.machineCondition machine rule subst

theorem applyRule_determined (rule : Rule) (subst : Substitution) :
    (machine.applyRule rule subst).Determined :=
  Run.compositional_determined.applyRule machine rule subst

theorem matchRule_determined (rule : Rule) (subject : Term) :
    (machine.matchRule rule subject).Determined :=
  Run.compositional_determined.matchRule machine rule subject

/-! ### A single step takes the first successor -/

/-- Matches that leave a step to the later rules have no successors. -/
theorem successorsByMatches_of_none {founds : List RuleMatch} (hsame : start.SameCounters start')
    (hstep : machine.stepByMatches rule founds start = .ok none next) :
    ∃ next', machine.successorsByMatches rule founds start' = .ok [] next' ∧
      next.SameCounters next' := by
  induction founds generalizing start start' with
  | nil =>
      obtain ⟨-, rfl⟩ := Run.pure_eq_ok.1 hstep
      exact ⟨start', rfl, hsame⟩
  | cons found others ih =>
      unfold stepByMatches at hstep
      unfold successorsByMatches
      split at hstep
      · cases (Run.pure_eq_ok.1 hstep).1
      · rename_i htrivial
        rw [if_neg htrivial]
        obtain ⟨condition, between, hcondition, hrest⟩ := Run.bind_eq_ok.1 hstep
        obtain ⟨between', hcondition', hbetween⟩ :=
          (condition_determined rule found.subst).exists_of_ok hsame hcondition
        rw [Run.bind_of_ok hcondition']
        cases condition with
        | fails => exact ih hbetween hrest
        | holds =>
            obtain ⟨term, built, -, hrest⟩ := Run.bind_eq_ok.1 hrest
            obtain ⟨_, recorded, -, hpure⟩ := Run.bind_eq_ok.1 hrest
            cases (Run.pure_eq_ok.1 hpure).1
        | unsettled _ => cases (Run.pure_eq_ok.1 hrest).1

theorem successorsByMatches_of_rewrote {founds : List RuleMatch} {id : RuleId} {term : Term}
    (hsame : start.SameCounters start')
    (hstep : machine.stepByMatches rule founds start = .ok (some (.rewrote id term)) next)
    {results : List (RuleId × Term)} {last : RunState σ}
    (hresults : machine.successorsByMatches rule founds start' = .ok results last) :
    results.head? = some (id, term) := by
  induction founds generalizing start start' with
  | nil => cases (Run.pure_eq_ok.1 hstep).1
  | cons found others ih =>
      unfold stepByMatches at hstep
      unfold successorsByMatches at hresults
      split at hstep
      · cases (Run.pure_eq_ok.1 hstep).1
      · rename_i htrivial
        rw [if_neg htrivial] at hresults
        obtain ⟨condition, between, hcondition, hrest⟩ := Run.bind_eq_ok.1 hstep
        obtain ⟨between', hcondition', hbetween⟩ :=
          (condition_determined rule found.subst).exists_of_ok hsame hcondition
        rw [Run.bind_of_ok hcondition'] at hresults
        cases condition with
        | fails => exact ih hbetween hrest hresults
        | holds =>
            obtain ⟨built, applied, happly, hrest⟩ := Run.bind_eq_ok.1 hrest
            obtain ⟨_, recorded, -, hpure⟩ := Run.bind_eq_ok.1 hrest
            cases (Run.pure_eq_ok.1 hpure).1
            obtain ⟨applied', happly', -⟩ :=
              (applyRule_determined rule found.subst).exists_of_ok hbetween happly
            obtain ⟨_, _, hagain, hresults⟩ := Run.bind_eq_ok.1 hresults
            cases happly'.symm.trans hagain
            obtain ⟨later, ended, -, hpure⟩ := Run.bind_eq_ok.1 hresults
            cases (Run.pure_eq_ok.1 hpure).1
            rfl
        | unsettled _ => cases (Run.pure_eq_ok.1 hrest).1

theorem successorsByRules_of_stuck {rules : List Rule} (hsame : start.SameCounters start')
    (hstep : machine.stepByRules subject rules start = .ok .stuck next) :
    ∃ next', machine.successorsByRules subject rules start' = .ok [] next' := by
  induction rules generalizing start start' with
  | nil => exact ⟨start', rfl⟩
  | cons rule rules ih =>
      unfold stepByRules at hstep
      unfold successorsByRules
      obtain ⟨results, between, hresults, hrest⟩ := Run.bind_eq_ok.1 hstep
      obtain ⟨between', hresults', hbetween⟩ :=
        (matchRule_determined rule subject).exists_of_ok hsame hresults
      obtain ⟨outcome, stepped, houtcome, hrest⟩ := Run.bind_eq_ok.1 hrest
      rw [Run.bind_of_ok hresults']
      cases outcome with
      | some result =>
          obtain ⟨rfl, -⟩ := Run.pure_eq_ok.1 hrest
          exact absurd rfl (stepByMatches_ne_stuck rule _ _ _ _ houtcome)
      | none =>
          obtain ⟨stepped', hnone, hstepped⟩ := successorsByMatches_of_none hbetween houtcome
          rw [Run.bind_of_ok hnone]
          dsimp only at hrest
          split at hrest
          · cases (Run.pure_eq_ok.1 hrest).1
          · obtain ⟨next', hnext'⟩ := ih hstepped hrest
            exact ⟨next', by rw [Run.bind_of_ok hnext']; rfl⟩

theorem successorsByRules_of_rewrote {rules : List Rule} {id : RuleId} {term : Term}
    (hsame : start.SameCounters start')
    (hstep : machine.stepByRules subject rules start = .ok (.rewrote id term) next)
    {results : List (RuleId × Term)} {last : RunState σ}
    (hresults : machine.successorsByRules subject rules start' = .ok results last) :
    results.head? = some (id, term) := by
  induction rules generalizing start start' results last with
  | nil => cases (Run.pure_eq_ok.1 hstep).1
  | cons rule rules ih =>
      unfold stepByRules at hstep
      unfold successorsByRules at hresults
      obtain ⟨founds, between, hfounds, hrest⟩ := Run.bind_eq_ok.1 hstep
      obtain ⟨between', hfounds', hbetween⟩ :=
        (matchRule_determined rule subject).exists_of_ok hsame hfounds
      obtain ⟨outcome, stepped, houtcome, hrest⟩ := Run.bind_eq_ok.1 hrest
      rw [Run.bind_of_ok hfounds'] at hresults
      obtain ⟨first, ended, hfirst, hresults⟩ := Run.bind_eq_ok.1 hresults
      obtain ⟨later, ended', hlater, hpure⟩ := Run.bind_eq_ok.1 hresults
      cases (Run.pure_eq_ok.1 hpure).1
      cases outcome with
      | some result =>
          obtain ⟨rfl, -⟩ := Run.pure_eq_ok.1 hrest
          have hhead := successorsByMatches_of_rewrote hbetween houtcome hfirst
          rw [List.head?_append, hhead, Option.some_or]
      | none =>
          obtain ⟨stepped', hnone, hstepped⟩ := successorsByMatches_of_none hbetween houtcome
          cases hnone.symm.trans hfirst
          dsimp only at hrest
          split at hrest
          · cases (Run.pure_eq_ok.1 hrest).1
          · exact ih hstepped hrest hlater

/-! ### A symbolic step takes all successors -/

/-- The condition of the rule is evaluated for the match, in the given state, while the successors by
the given matches are listed. -/
inductive MeetsAmong (machine : Machine σ) (rule : Rule) :
    List Substitution → RunState σ → Substitution → RunState σ → Prop
  | first (subst : Substitution) (others : List Substitution) (start : RunState σ) :
      MeetsAmong machine rule (subst :: others) start subst start
  | later {subst met : Substitution} {others : List Substitution} {start between state : RunState σ}
      {results : List (RuleId × Term)}
      (hresults : machine.successorBy rule subst start = .ok results between)
      (hmeets : MeetsAmong machine rule others between met state) :
      MeetsAmong machine rule (subst :: others) start met state

/-- The same, while the successors by all matches of the given rules are listed. -/
inductive Meets (machine : Machine σ) (subject : Term) :
    List Rule → RunState σ → Rule → Substitution → RunState σ → Prop
  | now {rule : Rule} {rules : List Rule} {start between state : RunState σ} {founds : RuleMatches}
      {subst : Substitution} (hmatch : machine.matchRule rule subject start = .ok founds between)
      (hmeets : machine.MeetsAmong rule founds.concrete between subst state) :
      Meets machine subject (rule :: rules) start rule subst state
  | later {rule other : Rule} {rules : List Rule} {start between next state : RunState σ}
      {founds : RuleMatches} {results : List (RuleId × Term)} {subst : Substitution}
      (hmatch : machine.matchRule rule subject start = .ok founds between)
      (hresults : machine.successorsBy rule founds.concrete between = .ok results next)
      (hmeets : Meets machine subject rules next other subst state) :
      Meets machine subject (rule :: rules) start other subst state

/-- If the condition of the rule has a value in this state, the value is a truth value. -/
def SettlesCondition (machine : Machine σ) (rule : Rule) (subst : Substitution)
    (state : RunState σ) : Prop :=
  ∀ requires value next, rule.requires = some requires →
    machine.definition.buildTerm machine.call subst .evaluate requires state = .ok value next →
      ∃ truth, value.asBool = some truth

theorem MeetsAmong.mem {substs : List Substitution} {met : Substitution} {state : RunState σ}
    (hmeets : machine.MeetsAmong rule substs start met state) : met ∈ substs := by
  induction hmeets with
  | first _ _ _ => exact List.mem_cons_self
  | later _ _ ih => exact List.mem_cons_of_mem _ ih

theorem Meets.mem {rules : List Rule} {subst : Substitution} {state : RunState σ}
    (hmeets : machine.Meets subject rules start rule subst state) :
    rule ∈ rules ∧ subst ∈ machine.definition.concreteMatches rule.lhs subject := by
  induction hmeets with
  | @now rule _ _ _ _ _ _ hmatch hmeets =>
      refine ⟨List.mem_cons_self, ?_⟩
      rw [← (machine.yields_matchRule rule subject).ensures _ _ _ hmatch]
      exact hmeets.mem
  | later _ _ _ ih => exact ⟨List.mem_cons_of_mem _ ih.1, ih.2⟩

/-- The condition is a variable that the match binds to a truth value, if there is one. -/
def settlesAtOnce (rule : Rule) (subst : Substitution) : Bool :=
  rule.requires.all fun requires => ((requires.asVar.bind subst.get?).bind Term.asBool).isSome

theorem settlesCondition_of_settlesAtOnce {subst : Substitution}
    (hsettles : settlesAtOnce rule subst = true) (state : RunState σ) :
    machine.SettlesCondition rule subst state := by
  intro requires value next hrequires hvalue
  rw [settlesAtOnce, hrequires, Option.all_some, Option.isSome_iff_exists] at hsettles
  obtain ⟨truth, hspelled⟩ := hsettles
  obtain ⟨bound, hbound, htruth⟩ := Option.bind_eq_some_iff.1 hspelled
  obtain ⟨v, hv, hget⟩ := Option.bind_eq_some_iff.1 hbound
  cases requires with
  | var w =>
      cases hv
      rw [Definition.buildTerm, hget] at hvalue
      obtain ⟨rfl, -⟩ := Run.pure_eq_ok.1 hvalue
      exact ⟨truth, htruth⟩
  | token _ _ | app _ _ | sequence _ _ | collection _ _ => cases hv

theorem SettlesCondition.ne_unsettled {subst : Substitution} {state between : RunState σ}
    (hsettles : machine.SettlesCondition rule subst state) {condition : Condition}
    (hcondition : machine.condition rule subst state = .ok condition between)
    (proposition : Term) : condition ≠ .unsettled proposition := by
  rintro rfl
  unfold Machine.condition Definition.condition at hcondition
  cases hrequires : rule.requires with
  | none =>
      rw [hrequires] at hcondition
      cases (Run.pure_eq_ok.1 hcondition).1
  | some requires =>
      rw [hrequires] at hcondition
      obtain ⟨value, evaluated, hvalue, hrest⟩ := Run.bind_eq_ok.1 hcondition
      obtain ⟨truth, htruth⟩ := hsettles requires value evaluated hrequires hvalue
      rw [htruth] at hrest
      cases truth <;> cases (Run.pure_eq_ok.1 hrest).1

end Machine

/-- The results are taken one after another, each without a condition. -/
def Guarded.taking (guarded : Guarded) (results : List (RuleId × Term)) : Guarded :=
  results.foldl
    (fun guarded result => guarded.add (.taken ⟨result.1, ⟨result.2, .trivial⟩⟩ .trivial)) guarded

theorem Guarded.taking_append (guarded : Guarded) (first later : List (RuleId × Term)) :
    guarded.taking (first ++ later) = (guarded.taking first).taking later :=
  List.foldl_append

theorem Guarded.taken_taking (guarded : Guarded) (results : List (RuleId × Term)) :
    (guarded.taking results).taken.toList = guarded.taken.toList ++
        results.map (fun result => (⟨result.1, ⟨result.2, .trivial⟩⟩, .trivial)) ∧
      (guarded.taking results).undecided = guarded.undecided := by
  induction results generalizing guarded with
  | nil => exact ⟨(List.append_nil _).symm, rfl⟩
  | cons result results ih =>
      obtain ⟨htaken, hundecided⟩ :=
        ih (guarded.add (.taken ⟨result.1, ⟨result.2, .trivial⟩⟩ .trivial))
      refine ⟨htaken.trans ?_, hundecided⟩
      rw [Guarded.add, Array.toList_push, List.append_assoc, List.map_cons, List.singleton_append]

namespace Machine

variable {machine : Machine σ} {rule : Rule} {subject : Term} {start start' next : RunState σ}

theorem exists_symbolicMatch (subject : Term) {subst : Substitution}
    (hsame : start.SameCounters start') (hsettles : machine.SettlesCondition rule subst start)
    {results : List (RuleId × Term)}
    (hresults : machine.successorBy rule subst start = .ok results next) :
    ∃ outcome next', machine.symbolicMatch ⟨subject, .trivial⟩ rule ⟨subst, .trivial⟩ start' =
        .ok outcome next' ∧ next.SameCounters next' ∧
      ∀ guarded : Guarded, guarded.add outcome = guarded.taking results := by
  obtain ⟨condition, between, hcondition, hrest⟩ := Run.bind_eq_ok.1 hresults
  obtain ⟨between', hcondition', hbetween⟩ :=
    (condition_determined rule subst).exists_of_ok hsame hcondition
  unfold symbolicMatch
  rw [Run.bind_of_ok hcondition']
  cases condition with
  | holds =>
      obtain ⟨term, applied, happly, hpure⟩ := Run.bind_eq_ok.1 hrest
      obtain ⟨rfl, rfl⟩ := Run.pure_eq_ok.1 hpure
      obtain ⟨applied', happly', happlied⟩ :=
        (applyRule_determined rule subst).exists_of_ok hbetween happly
      refine ⟨.taken ⟨rule.id, ⟨term, .trivial⟩⟩ .trivial,
        { applied' with metrics := applied'.metrics.recordStep }, ?_,
        ⟨happlied.cellsDrawn, happlied.counter, happlied.environment⟩, fun _ => rfl⟩
      exact (Run.bind_of_ok happly' _).trans rfl
  | fails =>
      obtain ⟨rfl, rfl⟩ := Run.pure_eq_ok.1 hrest
      exact ⟨.dropped, between', rfl, hbetween, fun _ => rfl⟩
  | unsettled proposition => exact absurd rfl (hsettles.ne_unsettled hcondition proposition)

theorem exists_symbolicMatches (subject : Term) {substs : List Substitution}
    (hsame : start.SameCounters start')
    (hsettles : ∀ subst state, machine.MeetsAmong rule substs start subst state →
      machine.SettlesCondition rule subst state)
    {results : List (RuleId × Term)}
    (hresults : machine.successorsBy rule substs start = .ok results next) (guarded : Guarded) :
    ∃ next', machine.symbolicMatches ⟨subject, .trivial⟩ rule
        (substs.map fun subst => ⟨subst, .trivial⟩) guarded start' =
          .ok (guarded.taking results) next' ∧ next.SameCounters next' := by
  induction substs generalizing start start' results guarded with
  | nil =>
      obtain ⟨rfl, rfl⟩ := Run.pure_eq_ok.1 hresults
      exact ⟨start', rfl, hsame⟩
  | cons subst substs ih =>
      obtain ⟨first, between, hfirst, hrest⟩ := Run.bind_eq_ok.1 hresults
      obtain ⟨later, last, hlater, hpure⟩ := Run.bind_eq_ok.1 hrest
      obtain ⟨rfl, rfl⟩ := Run.pure_eq_ok.1 hpure
      obtain ⟨outcome, between', houtcome, hbetween, hadd⟩ :=
        exists_symbolicMatch subject hsame (hsettles subst start (.first _ _ _)) hfirst
      obtain ⟨next', hnext', hlast⟩ := ih hbetween
        (fun met state hmeets => hsettles met state (.later hfirst hmeets)) hlater
        (guarded.add outcome)
      refine ⟨next', ?_, hlast⟩
      rw [List.map_cons, symbolicMatches, Run.bind_of_ok houtcome, hnext', hadd,
        guarded.taking_append]

theorem exists_symbolicRules (hground : subject.isGround = true) {rules : List Rule}
    (hsame : start.SameCounters start')
    (hsettles : ∀ rule subst state, machine.Meets subject rules start rule subst state →
      machine.SettlesCondition rule subst state)
    {results : List (RuleId × Term)}
    (hresults : machine.successorsByRules subject rules start = .ok results next)
    (guarded : Guarded) :
    ∃ next', machine.symbolicRules ⟨subject, .trivial⟩ rules guarded start' =
      .ok (guarded.taking results) next' ∧ next.SameCounters next' := by
  induction rules generalizing start start' results guarded with
  | nil =>
      obtain ⟨rfl, rfl⟩ := Run.pure_eq_ok.1 hresults
      exact ⟨start', rfl, hsame⟩
  | cons rule rules ih =>
      obtain ⟨founds, between, hfounds, hrest⟩ := Run.bind_eq_ok.1 hresults
      obtain ⟨first, matched, hfirst, hrest⟩ := Run.bind_eq_ok.1 hrest
      obtain ⟨later, last, hlater, hpure⟩ := Run.bind_eq_ok.1 hrest
      obtain ⟨rfl, rfl⟩ := Run.pure_eq_ok.1 hpure
      obtain ⟨hundecided, hfound⟩ :=
        (yields_matchRule_of_isGround hground rule).ensures _ _ _ hfounds
      have hconcrete : founds.concrete = machine.definition.concreteMatches rule.lhs subject :=
        (machine.yields_matchRule rule subject).ensures _ _ _ hfounds
      rw [successorsByMatches_eq] at hfirst
      obtain ⟨between', hfounds', hbetween⟩ :=
        (matchRule_determined rule subject).exists_of_ok hsame hfounds
      obtain ⟨matched', hmatched', hsame'⟩ := exists_symbolicMatches subject hbetween
        (fun subst state hmeets => hsettles rule subst state (.now hfounds hmeets)) hfirst guarded
      obtain ⟨next', hnext', hlast⟩ := ih hsame'
        (fun other subst state hmeets =>
          hsettles other subst state (.later hfounds hfirst hmeets)) hlater (guarded.taking first)
      have hcounted : { guarded with undecided := guarded.undecided + founds.undecided } =
          guarded := by
        rw [hundecided]
        rfl
      change machine.symbolicMatches ⟨subject, .trivial⟩ rule
        (founds.concrete.map fun subst => ⟨subst, .trivial⟩) guarded between' = _ at hmatched'
      rw [hconcrete, ← hfound] at hmatched'
      refine ⟨next', ?_, hlast⟩
      rw [guarded.taking_append, ← hnext']
      refine (Run.bind_of_ok hfounds' _).trans ?_
      rw [hcounted]
      exact Run.bind_of_ok hmatched' _

/-- **Single steps, all steps and symbolic steps agree**, from states with the same counters: a step
takes the first successor, it is stuck only if there are none, and on a ground term whose conditions
come to truth values a symbolic step takes exactly the successors and leaves nothing open. -/
theorem steps_agree (machine : Machine σ) (subject : Term) {start start' : RunState σ}
    (hsame : start.SameCounters start') :
    (∀ rule term next, machine.step subject start = .ok (.rewrote rule term) next →
      ∀ results last, machine.successors subject start' = .ok results last →
        results.head? = some (rule, term)) ∧
      (∀ next, machine.step subject start = .ok .stuck next →
        ∃ last, machine.successors subject start' = .ok [] last) ∧
      (subject.isGround = true →
        (∀ rule subst state,
          machine.Meets subject (machine.definition.candidates subject) start rule subst state →
            machine.SettlesCondition rule subst state) →
        ∀ results last, machine.successors subject start = .ok results last →
          ∃ step next, machine.stepSymbolic ⟨subject, .trivial⟩ start' = .ok step next ∧
            step.successors = results.map (fun result => ⟨result.1, ⟨result.2, .trivial⟩⟩) ∧
            step.undecided = 0 ∧ step.remainder = none) := by
  refine ⟨fun rule term next hstep results last => successorsByRules_of_rewrote hsame hstep,
    fun next => successorsByRules_of_stuck hsame, ?_⟩
  intro hground hsettles results last hresults
  obtain ⟨next, hrules, -⟩ := exists_symbolicRules hground hsame hsettles hresults {}
  obtain ⟨htaken, hundecided⟩ := Guarded.taken_taking {} results
  have htakes : Takes (Guarded.taking {} results) results := by
    refine ⟨hundecided, ?_⟩
    rw [htaken, List.nil_append, forall₂_map_right_iff, forall₂_same]
    exact fun result _ => ⟨⟨rfl, rfl⟩, rfl, rfl⟩
  refine ⟨{ successors := (Guarded.taking {} results).successors }, next, ?_, ?_, rfl, rfl⟩
  · unfold stepSymbolic
    refine (Run.bind_of_ok hrules _).trans ?_
    unfold completeStep
    rw [if_neg (by simp [htakes.leavesRemainder_eq_false]), hundecided]
    rfl
  · unfold Guarded.successors
    rw [htaken, List.nil_append, List.map_map]
    rfl

end Machine

namespace TicketDesk

def opened : Variable := ⟨"A", Symbol.bool, .plain⟩

def closed : Variable := ⟨"B", Symbol.bool, .plain⟩

def number : Variable := ⟨"N", Symbol.int, .plain⟩

def ticket : Variable := ⟨"T", "Ticket", .fresh⟩

def desk : Term := .app "desk" [.var opened, .var closed]

/-- The desk is closed or gives a ticket, under conditions of their own, or it has a break. -/
def machine : Machine Unit where
  definition := .assemble
    [.symbol ⟨"number", 1, "Ticket", .function none⟩,
      .generator "Ticket" "number",
      .rule { lhs := .app "number" [.var number], rhs := .app "ticket" [.var number] },
      .rule { lhs := desk, rhs := .app "shut" [], requires := some (.var closed) },
      .rule { lhs := desk, rhs := .app "served" [.var ticket], requires := some (.var opened) },
      .rule { lhs := desk, rhs := .app "break" [] }]
  oracle := DecisionProcedure.silent.toOracle Unit

def subject : Term := .app "desk" [.bool true, .bool false]

def start : RunState Unit := { counter := 7, environment := () }

/-- The same state after many steps. -/
def counted : RunState Unit := { start with metrics := { steps := 100 } }

theorem settles_subject : ∀ rule subst state,
    machine.Meets subject (machine.definition.candidates subject) start rule subst state →
      machine.SettlesCondition rule subst state := by
  have hall : ∀ rule ∈ machine.definition.candidates subject,
      ∀ subst ∈ machine.definition.concreteMatches rule.lhs subject,
        Machine.settlesAtOnce rule subst = true := by
    decide +kernel
  intro rule subst state hmeets
  obtain ⟨hrule, hsubst⟩ := hmeets.mem
  exact Machine.settlesCondition_of_settlesAtOnce (hall rule hrule subst hsubst) state

theorem steps_agree_desk :
    start.SameCounters counted ∧ subject.isGround = true ∧
    (∀ rule subst state,
      machine.Meets subject (machine.definition.candidates subject) start rule subst state →
        machine.SettlesCondition rule subst state) ∧
    (∃ rule term next last results, machine.step subject start = .ok (.rewrote rule term) next ∧
      machine.successors subject counted = .ok results last ∧
      results.head? = some (rule, term)) ∧
    ∃ results last step next, machine.successors subject start = .ok results last ∧
      (results.map Prod.snd == [.app "served" [.app "ticket" [.int 7]], .app "break" []]) = true ∧
      machine.stepSymbolic ⟨subject, .trivial⟩ counted = .ok step next ∧
      step.successors = results.map (fun result => ⟨result.1, ⟨result.2, .trivial⟩⟩) ∧
      step.undecided = 0 ∧ step.remainder = none := by
  have hsame : start.SameCounters counted := ⟨rfl, rfl, rfl⟩
  have hground : subject.isGround = true := by decide
  obtain ⟨hfirst, -, hsymbolic⟩ := Machine.steps_agree machine subject hsame
  have hstep : (machine.step subject).succeedsWith start (fun result => match result with
      | .rewrote _ _ => true
      | _ => false) = true := by
    decide +kernel
  obtain ⟨result, next, hstep, hrewrote⟩ := Run.exists_of_succeedsWith hstep
  have hresults : (machine.successors subject).succeedsWith start (fun results =>
      results.map Prod.snd == [.app "served" [.app "ticket" [.int 7]], .app "break" []]) = true := by
    decide +kernel
  obtain ⟨results, last, hresults, htest⟩ := Run.exists_of_succeedsWith hresults
  have hdetermined := Run.compositional_determined.successors machine subject
  obtain ⟨last', hresults', -⟩ := hdetermined.exists_of_ok hsame hresults
  obtain ⟨step, ended, hstepped⟩ := hsymbolic hground settles_subject results last hresults
  refine ⟨hsame, hground, settles_subject, ?_, results, last, step, ended, hresults, htest, hstepped⟩
  cases result with
  | rewrote rule term =>
      exact ⟨rule, term, next, last', results, hstep, hresults',
        hfirst rule term next hstep results last' hresults'⟩
  | stuck => cases hrewrote
  | undecided => cases hrewrote

end TicketDesk

end SymbolicRewriting
