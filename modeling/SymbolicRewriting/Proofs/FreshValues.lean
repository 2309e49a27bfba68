import Mathlib.Algebra.Order.Group.Nat
import SymbolicRewriting.Oracle.Silent
import SymbolicRewriting.Proofs.Encounters
import SymbolicRewriting.Proofs.Fingerprints
import SymbolicRewriting.Proofs.Repeatability
import SymbolicRewriting.Proofs.SharedContexts

/-!
# Fresh values

However the actions of machines interleave that share a context, the tokens of their fresh values
are those of successive numbers, which are distinct for a whole round of the counter. The counter is
ahead by as many numbers as fresh values were requested by all machines together.
-/

namespace SymbolicRewriting

variable {n : Nat} {σ α : Type}

/-! ### Tokens of successive numbers -/

namespace Term

theorem ofNumber_beq (number other : UInt64) :
    (ofNumber number == ofNumber other) = decide (number = other) := by
  have hwrite : Decimal.write number.toInt64.toInt = Decimal.write other.toInt64.toInt ↔
      number = other := by
    constructor
    · intro hwritten
      have hread := congrArg Decimal.read? hwritten
      rw [Decimal.read?_write, Decimal.read?_write, Option.some.injEq, Int64.toInt_inj] at hread
      simpa using congrArg Int64.toUInt64 hread
    · rintro rfl
      rfl
  rw [beq_eq_equals, ofNumber, ofNumber, int, int, equals, beq_self_eq_true, Bool.true_and]
  exact decide_eq_decide.2 hwrite

/-- No two of the terms are equal. -/
def AreDistinct (terms : List Term) : Prop :=
  terms.Pairwise fun left right => (left == right) = false

theorem AreDistinct.perm {terms others : List Term} (hdistinct : AreDistinct terms)
    (hperm : terms.Perm others) : AreDistinct others :=
  List.Pairwise.perm hdistinct hperm fun hunequal => BEq.comm.trans hunequal

/-- The tokens of so many successive numbers. -/
def tokensFrom (start : UInt64) (count : Nat) : List Term :=
  (List.range count).map fun k => ofNumber (start + UInt64.ofNat k)

theorem tokensFrom_add (start : UInt64) (count more : Nat) :
    tokensFrom start (count + more) =
      tokensFrom start count ++ tokensFrom (start + UInt64.ofNat count) more := by
  simp only [tokensFrom, List.range_add, List.map_append, List.map_map, Function.comp_def,
    UInt64.ofNat_add, UInt64.add_assoc]

theorem exists_of_mem_tokensFrom {start : UInt64} {count : Nat} {token : Term}
    (hmem : token ∈ tokensFrom start count) :
    ∃ value, Decimal.IsWord value ∧ token = .int value := by
  obtain ⟨k, -, rfl⟩ := List.mem_map.1 hmem
  exact ⟨_, ⟨Int64.le_toInt _, Int64.toInt_lt _⟩, rfl⟩

/-- Up to the wrap of the counter no number comes again. -/
theorem areDistinct_tokensFrom (start : UInt64) {count : Nat} (hcount : count ≤ 2 ^ 64) :
    AreDistinct (tokensFrom start count) := by
  rw [AreDistinct, tokensFrom, List.pairwise_map]
  refine List.pairwise_lt_range.imp_of_mem ?_
  intro k l _ hl hlt
  rw [ofNumber_beq, decide_eq_false_iff_not, UInt64.add_right_inj]
  intro hsame
  have hbound := List.mem_range.1 hl
  have hnumbers := congrArg UInt64.toNat hsame
  rw [UInt64.toNat_ofNat', UInt64.toNat_ofNat', Nat.mod_eq_of_lt (by omega),
    Nat.mod_eq_of_lt (by omega)] at hnumbers
  omega

end Term

/-! ### The counter and the requests -/

namespace SharedContext

def freshRequests (context : SharedContext n σ) (account : Fin n) : Nat :=
  (context.metrics account).freshRequests

/-- The given tokens, and no others, have been drawn and counted. -/
structure Draws (first : SharedContext n σ) (tokens : List Term) (last : SharedContext n σ) :
    Prop where
  successive : tokens = Term.tokensFrom first.counter tokens.length
  counter : last.counter = first.counter + UInt64.ofNat tokens.length
  grows : ∀ account, first.freshRequests account ≤ last.freshRequests account
  requests : ∑ account, last.freshRequests account =
    ∑ account, first.freshRequests account + tokens.length

namespace Draws

variable {first context last : SharedContext n σ} {tokens more : List Term}

theorem refl (context : SharedContext n σ) : context.Draws [] context where
  successive := rfl
  counter := (UInt64.add_zero _).symm
  grows _ := Nat.le_refl _
  requests := rfl

theorem trans (hfirst : first.Draws tokens context) (hsecond : context.Draws more last) :
    first.Draws (tokens ++ more) last where
  successive := by
    rw [List.length_append, Term.tokensFrom_add, ← hfirst.counter, ← hfirst.successive,
      ← hsecond.successive]
  counter := by
    rw [hsecond.counter, hfirst.counter, List.length_append, UInt64.ofNat_add, UInt64.add_assoc]
  grows account := (hfirst.grows account).trans (hsecond.grows account)
  requests := by
    rw [hsecond.requests, hfirst.requests, List.length_append, Nat.add_assoc]

/-- In all, the requests have grown by as much as the requests of each account. -/
theorem counter_eq (hdraws : first.Draws tokens last) :
    last.counter = first.counter +
      UInt64.ofNat (∑ account, (last.freshRequests account - first.freshRequests account)) := by
  have hsum := Finset.sum_tsub_distrib Finset.univ fun account _ => hdraws.grows account
  rw [hdraws.counter, hsum, hdraws.requests, Nat.add_sub_cancel_left]

end Draws

theorem freshRequests_store (context : SharedContext n σ) (account : Fin n) (state : RunState σ) :
    (context.store account state).freshRequests =
      Function.update context.freshRequests account state.metrics.freshRequests := by
  funext other
  by_cases hsame : other = account
  · subst hsame
    simp [freshRequests, store]
  · simp [freshRequests, store, hsame]

theorem sum_freshRequests_store (context : SharedContext n σ) (account : Fin n)
    (state : RunState σ) {count : Nat}
    (hcount : state.metrics.freshRequests = context.freshRequests account + count) :
    ∑ other, (context.store account state).freshRequests other =
      ∑ other, context.freshRequests other + count := by
  have hsum := Finset.sum_erase_add Finset.univ context.freshRequests (Finset.mem_univ account)
  rw [freshRequests_store, Finset.sum_update_of_mem (Finset.mem_univ account),
    Finset.sdiff_singleton_eq_erase, hcount]
  omega

theorem grows_store (context : SharedContext n σ) (account : Fin n) (state : RunState σ)
    (hstate : context.freshRequests account ≤ state.metrics.freshRequests) (other : Fin n) :
    context.freshRequests other ≤ (context.store account state).freshRequests other := by
  rw [freshRequests_store]
  by_cases hsame : other = account
  · subst hsame
    rwa [Function.update_self]
  · rw [Function.update_of_ne hsame]

/-- A machine has drawn the tokens if its own state says so. -/
theorem draws_store {context : SharedContext n σ} {account : Fin n} {state : RunState σ}
    {tokens : List Term} (hsuccessive : tokens = Term.tokensFrom context.counter tokens.length)
    (hcounter : state.counter = context.counter + UInt64.ofNat tokens.length)
    (hrequests : state.metrics.freshRequests = context.freshRequests account + tokens.length) :
    context.Draws tokens (context.store account state) where
  successive := hsuccessive
  counter := hcounter
  grows := grows_store context account state (by omega)
  requests := sum_freshRequests_store context account state hrequests

theorem draws_act (context : SharedContext n σ) (account : Fin n) (action : Action σ α) :
    context.Draws (action.drawn (context.act account action.perform).1)
      (context.act account action.perform).2 := by
  have hsame : context.counter = context.counter + UInt64.ofNat 0 := (UInt64.add_zero _).symm
  cases action with
  | drawToken => exact draws_store (congrArg (fun number => [Term.ofNumber number]) hsame) rfl rfl
  | drawCell | ask _ => exact draws_store rfl hsame rfl
  | record update hupdate => exact draws_store rfl hsame (hupdate _)

end SharedContext

theorem Interleaving.draws {first last : SharedContext n σ} {threads left : List (Thread n σ α)}
    {tokens : List Term} (hinterleaving : Interleaving first threads tokens last left) :
    first.Draws tokens last := by
  induction hinterleaving with
  | refl => exact .refl _
  | act _ ih => exact ih.trans (SharedContext.draws_act _ _ _)

/-! ### Generators that box their number -/

/-- The rule `generator(N:Int) => constructor(N)`. -/
def Rule.Boxes (rule : Rule) (generator constructor : Label) : Prop :=
  ∃ v : Variable, v.sort = Symbol.int ∧ v.kind = .plain ∧ rule.lhs = .app generator [.var v] ∧
    rule.rhs = .app constructor [.var v] ∧ rule.requires = none

theorem Term.vars_app_var (label : Label) (v : Variable) :
    (Term.app label [.var v]).vars = [v] := by
  rw [vars, visit_eq_subterms]
  rfl

theorem Rule.Boxes.freshVars {rule : Rule} {generator constructor : Label}
    (hboxes : rule.Boxes generator constructor) : rule.freshVars = [] := by
  obtain ⟨v, -, hkind, hlhs, hrhs, -⟩ := hboxes
  have hfresh : v.isFresh = false := by simp [Variable.isFresh, hkind]
  have hvars : rule.vars = [v] := by
    rw [vars, hlhs, hrhs, Term.vars_app_var, Term.vars_app_var, List.filter_singleton, hfresh]
    rfl
  rw [Rule.freshVars, hvars, List.filter_singleton, hfresh]
  rfl

/-- Fresh values of the sort are made by a function, and the first rule to define it is such a
rule. -/
structure Definition.Boxes (definition : Definition) (sort : SortName)
    (generator constructor : Label) : Prop where
  generated : definition.generator? sort = some generator
  isFunction : definition.isFunction generator = true
  unhooked : definition.hook? generator = none
  ruled : ∃ rule others, definition.functionRulesOf generator = rule :: others ∧
    rule.Boxes generator constructor
  constructs : definition.isFunction constructor = false

namespace Definition

variable {definition : Definition} {sort : SortName} {generator constructor : Label}

theorem concreteMatches_int {v : Variable} (hsort : v.sort = Symbol.int) (hkind : v.kind = .plain)
    (label : Label) (value : Int) :
    definition.concreteMatches (.app label [.var v]) (.app label [.int value]) =
      [Substitution.empty.push v (.int value)] := by
  have hplain : (Term.app label [.var v]).Plain fun _ => True := by
    refine .app label _ trivial fun arg harg => ?_
    rw [List.mem_singleton.1 harg]
    exact .var v hkind
  have hadmits : definition.admits v (.int value) = .yes := by
    simp [admits, sortOf, Term.int, isSubsort, hsort]
  have hmeets : Findings.meetAll definition {}
      ((Term.app label [.var v]).encounters (.app label [.int value])) =
        .ok { subst := Substitution.empty.push v (.int value) } := by
    have hmeet : Findings.meet definition {} (.bind v (.int value)) =
        .ok { subst := Substitution.empty.push v (.int value) } := by
      rw [Findings.meet, hadmits]
      rfl
    rw [Term.encounters, if_pos ⟨rfl, rfl⟩]
    change Findings.meetAll definition {} [.bind v (.int value)] = _
    rw [Findings.meetAll, List.foldlM_cons, hmeet]
    rfl
  rw [concreteMatches, matchPattern_eq hplain, hmeets]
  rfl

/-- The call of the generator takes one level of nesting. -/
theorem Boxes.callWithin_eq (hboxes : definition.Boxes sort generator constructor)
    (limit levels : Nat) (value : Int) :
    (definition.callWithin limit (levels + 1) generator [.int value] : Run σ Term) = (do
      Run.record Metrics.recordFunctionEval
      pure (.app constructor [.int value])) := by
  obtain ⟨rule, others, hrules, hrule⟩ := hboxes.ruled
  have hfresh := hrule.freshVars
  obtain ⟨v, hsort, hkind, hlhs, hrhs, hrequires⟩ := hrule
  have hbound : (Substitution.empty.push v (.int value)).get? v = some (.int value) := by
    simp [Substitution.get?, Substitution.push, Substitution.empty]
  rw [callWithin, hboxes.unhooked]
  dsimp only
  rw [applyFunctionRules, hrules, firstApplicable, hlhs, concreteMatches_int hsort hkind,
    firstHolding, condition, hrequires]
  simp only [pure_bind]
  rw [buildRight_of_freshVars_eq_nil hfresh, hrhs, buildTerm, buildTerms, buildTerms,
    buildTerm, hbound, hboxes.constructs]
  rfl

theorem Boxes.freshValue_eq (hboxes : definition.Boxes sort generator constructor)
    (call : Caller σ) :
    definition.freshValue call sort =
      Run.drawToken >>= fun token => call generator [token] := by
  rw [freshValue_of_some hboxes.generated]
  simp only [Run.drawToken, bind_assoc, pure_bind]
  refine congrArg _ (funext fun number => congrArg _ (funext fun _ => ?_))
  rw [buildTerm, buildTerms, buildTerms, Term.ofNumber, Term.int, buildTerm, hboxes.isFunction]
  rfl

end Definition

/-- A request for a fresh value that is the token of its number in a box. -/
structure BoxedRequest (n : Nat) (σ : Type) where
  account : Fin n
  machine : Machine σ
  sort : SortName
  generator : Label
  constructor : Label
  boxes : machine.definition.Boxes sort generator constructor

theorem Run.drawToken_bind_congr {continuation other : Term → Run σ α}
    (hsame : ∀ number, continuation (.ofNumber number) = other (.ofNumber number)) :
    Run.drawToken >>= continuation = Run.drawToken >>= other := by
  simp only [Run.drawToken, bind_assoc, pure_bind, hsame]

namespace BoxedRequest

def value (request : BoxedRequest n σ) (token : Term) : Term := .app request.constructor [token]

/-- The call of the generator. Without any level of nesting it is refused. -/
def called (request : BoxedRequest n σ) (token : Term) : Script σ Term :=
  match request.machine.config.maxFunctionDepth with
  | 0 => .done (.error (.functionDepthExceeded request.generator 0))
  | _ + 1 =>
      .act (.record Metrics.recordFunctionEval fun _ => rfl) fun _ =>
        .done (.ok (request.value token))

def script (request : BoxedRequest n σ) : Script σ Term := .act .drawToken request.called

theorem run_called (request : BoxedRequest n σ) (value : Int) :
    (request.called (.int value)).run = request.machine.call request.generator [.int value] := by
  unfold called Machine.call
  cases request.machine.config.maxFunctionDepth with
  | zero => rfl
  | succ levels =>
      rw [request.boxes.callWithin_eq]
      rfl

theorem run_script (request : BoxedRequest n σ) :
    request.script.run = request.machine.fresh request.sort := by
  rw [Machine.fresh, request.boxes.freshValue_eq]
  exact Run.drawToken_bind_congr fun number => request.run_called number.toInt64.toInt

/-- With a level of nesting every request is granted. -/
theorem exists_fresh (request : BoxedRequest n σ)
    (hdepth : 0 < request.machine.config.maxFunctionDepth) (state : RunState σ) :
    ∃ next, request.machine.fresh request.sort state =
      .ok (request.value (.ofNumber state.counter)) next := by
  have hcalled : ∀ token, request.called token =
      .act (.record Metrics.recordFunctionEval fun _ => rfl) fun _ =>
        .done (.ok (request.value token)) := by
    intro token
    unfold called
    split
    · omega
    · rfl
  rw [← run_script, script, funext hcalled]
  exact ⟨_, rfl⟩

/-- How far a request has come: it has yet to draw its token, it has yet to call the generator, or
it has its value. -/
inductive Stage where
  | waiting
  | drawn (token : Term)
  | done (token : Term)

def Stage.token? : Stage → Option Term
  | waiting => none
  | drawn token => some token
  | done token => some token

def thread (request : BoxedRequest n σ) : Stage → Thread n σ Term
  | .waiting => ⟨request.account, request.script⟩
  | .drawn token => ⟨request.account, request.called token⟩
  | .done token => ⟨request.account, .done (.ok (request.value token))⟩

/-- Requests, each as far as it has come. -/
abbrev Stages (n : Nat) (σ : Type) := List (BoxedRequest n σ × Stage)

def Stages.threads (stages : Stages n σ) : List (Thread n σ Term) :=
  stages.map fun entry => entry.1.thread entry.2

def Stages.held (stages : Stages n σ) : List Term :=
  stages.filterMap fun entry => entry.2.token?

theorem Stages.held_insert (before after : Stages n σ) (request : BoxedRequest n σ)
    (stage : Stage) :
    Stages.held (before ++ (request, stage) :: after) =
      before.held ++ (stage.token?.toList ++ after.held) := by
  simp only [held, List.filterMap_append, List.filterMap_cons]
  cases stage.token? <;> rfl

/-- A thread that acts is that of a request which draws its token or is about to have its value. -/
theorem exists_next {request : BoxedRequest n σ} {stage : Stage} {account : Fin n}
    {action : Action σ α} {rest : α → Script σ Term}
    (hthread : request.thread stage = ⟨account, .act action rest⟩) (answer : α) :
    ∃ next : Stage, request.thread next = ⟨account, rest answer⟩ ∧
      next.token?.toList = stage.token?.toList ++ action.drawn answer := by
  cases stage with
  | waiting =>
      cases hthread
      exact ⟨.drawn answer, rfl, rfl⟩
  | drawn token =>
      unfold thread called at hthread
      dsimp only at hthread
      split at hthread
      · cases hthread
      · cases hthread
        exact ⟨.done token, rfl, rfl⟩
  | done token => cases hthread

/-- By induction on the interleaving: the tokens that the requests hold are those that were
drawn. -/
theorem exists_stages {requests : List (BoxedRequest n σ)} {first last : SharedContext n σ}
    {tokens : List Term} {left : List (Thread n σ Term)}
    (hinterleaving : Interleaving first (requests.map fun request => request.thread .waiting) tokens
      last left) :
    ∃ stages : Stages n σ, left = stages.threads ∧ stages.map Prod.fst = requests ∧
      stages.held.Perm tokens := by
  generalize hthreads : requests.map (fun request => request.thread .waiting) = threads
    at hinterleaving
  induction hinterleaving with
  | refl =>
      refine ⟨requests.map fun request => (request, .waiting), ?_, ?_, ?_⟩
      · rw [← hthreads, Stages.threads, List.map_map]
        rfl
      · rw [List.map_map]
        exact List.map_id _
      · rw [Stages.held, List.filterMap_map]
        exact List.Perm.of_eq (List.filterMap_eq_nil_iff.2 fun _ _ => rfl)
  | @act context _ before after tokens account _ action rest hbefore ih =>
      obtain ⟨stages, hleft, hrequests, hheld⟩ := ih hthreads
      obtain ⟨earlier, others, rfl, rfl, hothers⟩ := List.map_eq_append_iff.1 hleft.symm
      obtain ⟨⟨request, stage⟩, later, rfl, hthread, rfl⟩ := List.map_eq_cons_iff.1 hothers
      obtain ⟨next, hnext, htokens⟩ :=
        exists_next hthread (context.act account action.perform).1
      refine ⟨earlier ++ (request, next) :: later, ?_, ?_, ?_⟩
      · rw [← hnext, Stages.threads, List.map_append, List.map_cons]
      · rw [← hrequests, List.map_append, List.map_append, List.map_cons, List.map_cons]
      · rw [Stages.held_insert] at hheld ⊢
        rw [htokens, List.append_assoc]
        refine ((List.perm_append_comm.append_left _).append_left _).trans ?_
        rw [← List.append_assoc stage.token?.toList, ← List.append_assoc]
        exact hheld.append_right _

theorem exists_token {request : BoxedRequest n σ} {stage : Stage} {value : Term}
    (hvalue : (request.thread stage).value? = some value) :
    ∃ token, stage.token? = some token ∧ value = request.value token := by
  cases stage with
  | waiting => cases hvalue
  | drawn token =>
      unfold thread called at hvalue
      dsimp only at hvalue
      split at hvalue <;> cases hvalue
  | done token =>
      cases hvalue
      exact ⟨token, rfl, rfl⟩

/-- Requests that hold distinct tokens end with distinct values. -/
theorem areDistinct_values {stages : Stages n σ} (hheld : Term.AreDistinct stages.held) :
    Term.AreDistinct (stages.threads.filterMap Thread.value?) := by
  rw [Term.AreDistinct, Stages.held, List.pairwise_filterMap] at hheld
  rw [Term.AreDistinct, List.pairwise_filterMap, Stages.threads, List.pairwise_map]
  refine hheld.imp ?_
  intro entry other hdistinct value hvalue value' hvalue'
  obtain ⟨token, htoken, rfl⟩ := exists_token hvalue
  obtain ⟨token', htoken', rfl⟩ := exists_token hvalue'
  have htokens := hdistinct token htoken token' htoken'
  rw [Term.beq_eq_equals] at htokens ⊢
  rw [BoxedRequest.value, BoxedRequest.value, Term.equals, Term.equalsAll, htokens,
    Bool.false_and, Bool.and_false]

end BoxedRequest

/-! ### Distinct and counted -/

/-- The counter is ahead by the requests of all accounts. -/
def SharedContext.Accounts (first last : SharedContext n σ) : Prop :=
  (∀ account, first.freshRequests account ≤ last.freshRequests account) ∧
    last.counter = first.counter +
      UInt64.ofNat (∑ account, (last.freshRequests account - first.freshRequests account))

namespace Interleaving

variable {first last : SharedContext n σ} {tokens : List Term}

theorem areDistinct_tokens {threads left : List (Thread n σ α)}
    (hinterleaving : Interleaving first threads tokens last left)
    (hlength : tokens.length ≤ 2 ^ 64) : Term.AreDistinct tokens := by
  rw [hinterleaving.draws.successive]
  exact Term.areDistinct_tokensFrom first.counter hlength

theorem accounts {threads left : List (Thread n σ α)}
    (hinterleaving : Interleaving first threads tokens last left) : first.Accounts last :=
  ⟨hinterleaving.draws.grows, hinterleaving.draws.counter_eq⟩

theorem areDistinct_values {requests : List (BoxedRequest n σ)} {left : List (Thread n σ Term)}
    (hinterleaving : Interleaving first (requests.map fun request => request.thread .waiting) tokens
      last left) (hlength : requests.length ≤ 2 ^ 64) :
    Term.AreDistinct (left.filterMap Thread.value?) := by
  obtain ⟨stages, rfl, rfl, hheld⟩ := BoxedRequest.exists_stages hinterleaving
  have htokens : tokens.length ≤ 2 ^ 64 := by
    rw [← hheld.length_eq]
    rw [List.length_map] at hlength
    exact (List.length_filterMap_le _ _).trans hlength
  exact BoxedRequest.areDistinct_values ((hinterleaving.areDistinct_tokens htokens).perm hheld.symm)

end Interleaving

namespace SharedContext

/-- Operations that fail have had their effect on the counter all the same. -/
theorem accounts_performAll (context : SharedContext n σ)
    (tasks : List (Fin n × Machine σ × Operation)) :
    context.Accounts
      (context.performAll (tasks.map fun task => (task.1, task.2.2.runBy task.2.1))).2 := by
  have hscripted := fun task : Fin n × Machine σ × Operation =>
    Run.compositional_scripted.operation task.2.1 task.2.2
  choose scripts hscripts using hscripted
  have hruns : (tasks.map fun task => (task.1, task.2.2.runBy task.2.1)) =
      (tasks.map fun task => (⟨task.1, scripts task⟩ : Thread n σ Unit)).map Thread.run := by
    rw [List.map_map]
    exact List.map_congr_left fun task _ => Prod.ext rfl (hscripts task).symm
  obtain ⟨tokens, ended, hinterleaving, -⟩ := Interleaving.exists_performAll context []
    (tasks.map fun task => (⟨task.1, scripts task⟩ : Thread n σ Unit))
  rw [hruns]
  exact hinterleaving.accounts

theorem areDistinct_values_performAll (context : SharedContext n σ)
    {requests : List (BoxedRequest n σ)} (hlength : requests.length ≤ 2 ^ 64) :
    Term.AreDistinct ((context.performAll (requests.map fun request =>
      (request.account, request.machine.fresh request.sort))).1.filterMap Except.toOption) := by
  have hruns : (requests.map fun request =>
        (request.account, request.machine.fresh request.sort)) =
      (requests.map fun request => request.thread .waiting).map Thread.run := by
    rw [List.map_map]
    exact List.map_congr_left fun request _ => Prod.ext rfl request.run_script.symm
  obtain ⟨tokens, ended, hinterleaving, hended⟩ := Interleaving.exists_performAll context []
    (requests.map fun request => request.thread .waiting)
  have hvalues := hinterleaving.areDistinct_values hlength
  rw [hruns]
  have hsame : ([] ++ ended).filterMap Thread.value? =
      (context.performAll ((requests.map fun request => request.thread .waiting).map
        Thread.run)).1.filterMap Except.toOption := by
    calc
      _ = (ended.map Thread.script).filterMap Script.value? := by
        rw [List.filterMap_map]
        rfl
      _ = _ := by
        rw [hended, List.filterMap_map]
        refine List.filterMap_congr fun result _ => ?_
        cases result <;> rfl
  rwa [hsame] at hvalues

end SharedContext

/-- A request passes its token to the generator, if there is one, and nothing happens otherwise. -/
theorem Definition.freshValue_cases (definition : Definition) (call : Caller σ) (sort : SortName) :
    match definition.generator? sort with
    | some generator => definition.freshValue call sort = Run.drawToken >>= fun token =>
        definition.buildTerm call .empty .evaluate (.app generator [token])
    | none => ∀ (context : SharedContext n σ) account,
        context.act account (definition.freshValue call sort).attempt =
          (.error (.unconfiguredFreshFunction sort), context) := by
  cases hgenerator : definition.generator? sort with
  | some generator => exact freshValue_of_some hgenerator
  | none =>
      intro context account
      rw [freshValue_of_none hgenerator]
      exact Prod.ext rfl (context.store_view account)

/-- The counter is a word that wraps around, a token is read as a signed word and its text is
decimal; all the same, the tokens of a whole round are distinct, whoever draws them and whenever. -/
theorem fresh_values_distinct_and_counted (n : Nat) (σ : Type) :
    (∀ {α : Type} (first last : SharedContext n σ) (threads left : List (Thread n σ α))
      (tokens : List Term), Interleaving first threads tokens last left →
        (tokens.length ≤ 2 ^ 64 → Term.AreDistinct tokens) ∧
        (∀ token ∈ tokens, ∃ value, Decimal.IsWord value ∧ token = .int value) ∧
        first.Accounts last) ∧
    (∀ (definition : Definition) (call : Caller σ) (sort : SortName),
      match definition.generator? sort with
      | some generator => definition.freshValue call sort = Run.drawToken >>= fun token =>
          definition.buildTerm call .empty .evaluate (.app generator [token])
      | none => ∀ (context : SharedContext n σ) account,
          context.act account (definition.freshValue call sort).attempt =
            (.error (.unconfiguredFreshFunction sort), context)) ∧
    (∀ (machine : Machine σ) (operation : Operation), (operation.runBy machine).Scripted) ∧
    (∀ (context : SharedContext n σ) (tasks : List (Fin n × Machine σ × Operation)),
      context.Accounts
        (context.performAll (tasks.map fun task => (task.1, task.2.2.runBy task.2.1))).2) ∧
    (∀ requests : List (BoxedRequest n σ), requests.length ≤ 2 ^ 64 →
      (∀ (first last : SharedContext n σ) (tokens : List Term) (left : List (Thread n σ Term)),
        Interleaving first (requests.map fun request => ⟨request.account, request.script⟩) tokens
            last left →
          Term.AreDistinct (left.filterMap Thread.value?)) ∧
      ∀ context : SharedContext n σ,
        Term.AreDistinct ((context.performAll (requests.map fun request =>
          (request.account, request.machine.fresh request.sort))).1.filterMap Except.toOption)) ∧
    ∀ request : BoxedRequest n σ, request.script.run = request.machine.fresh request.sort ∧
      (0 < request.machine.config.maxFunctionDepth → ∀ state,
        ∃ next, request.machine.fresh request.sort state =
          .ok (.app request.constructor [.ofNumber state.counter]) next) := by
  refine ⟨?_, Definition.freshValue_cases, ?_, SharedContext.accounts_performAll, ?_, ?_⟩
  · intro α first last threads left tokens hinterleaving
    refine ⟨hinterleaving.areDistinct_tokens, ?_, hinterleaving.accounts⟩
    rw [hinterleaving.draws.successive]
    exact fun token => Term.exists_of_mem_tokensFrom
  · exact fun machine operation => Run.compositional_scripted.operation machine operation
  · intro requests hlength
    exact ⟨fun first last tokens left hinterleaving => hinterleaving.areDistinct_values hlength,
      fun context => context.areDistinct_values_performAll hlength⟩
  · exact fun request => ⟨request.run_script, request.exists_fresh⟩

/-! Two machines draw tickets in turns, across the end of the signed words. -/

namespace Turns

def number : Variable := ⟨"N", Symbol.int, .plain⟩

def definition : Definition where
  signatures := [⟨"number", 1, "Ticket", .function none⟩, ⟨"ticket", 1, "Ticket", .constructor⟩]
  rewriteRules := []
  functionRules :=
    [{ id := 0, lhs := .app "number" [.var number], rhs := .app "ticket" [.var number] }]
  generators := [("Ticket", "number")]
  supersorts := []

theorem boxes : definition.Boxes "Ticket" "number" "ticket" where
  generated := by decide
  isFunction := by decide
  unhooked := by decide
  ruled := ⟨_, [], by rfl, number, rfl, rfl, rfl, rfl, rfl⟩
  constructs := by decide

def machine : Machine Unit where
  definition := definition
  oracle := DecisionProcedure.silent.toOracle Unit

def request (account : Fin 2) : BoxedRequest 2 Unit :=
  ⟨account, machine, "Ticket", "number", "ticket", boxes⟩

def start : SharedContext 2 Unit :=
  { counter := 0x7fffffffffffffff, environment := (), metrics := fun _ => {} }

/-- The greatest signed word and the least one. -/
def tokens : List Term := [.ofNumber 0x7fffffffffffffff, .ofNumber 0x8000000000000000]

/-- The second machine draws its token before the first one, and gets its ticket after it. -/
theorem interleaving : ∃ last left,
    Interleaving start ([request 0, request 1].map fun request => ⟨request.account, request.script⟩)
      tokens last left ∧
    left.filterMap Thread.value? =
      [.app "ticket" [.ofNumber 0x8000000000000000],
        .app "ticket" [.ofNumber 0x7fffffffffffffff]] := by
  have hstart : Interleaving start
      ([request 0, request 1].map fun request => ⟨request.account, request.script⟩) [] start
      ([⟨0, (request 0).script⟩] ++ ⟨1, .act .drawToken (request 1).called⟩ :: []) := .refl _ _
  have hsecond : Interleaving start _ _ _
      ([] ++ ⟨0, .act .drawToken (request 0).called⟩ :: [⟨1, _⟩]) := hstart.act
  have hfirst : Interleaving start _ _ _ ([] ++ ⟨0, .act (.record _ _) _⟩ :: [⟨1, _⟩]) :=
    hsecond.act
  have hticket : Interleaving start _ _ _ ([⟨0, _⟩] ++ ⟨1, .act (.record _ _) _⟩ :: []) :=
    hfirst.act
  exact ⟨_, _, hticket.act, rfl⟩

theorem fresh_values_distinct_and_counted_tickets :
    [request 0, request 1].length ≤ 2 ^ 64 ∧ tokens.length ≤ 2 ^ 64 ∧
    (tokens == [.int 9223372036854775807, .int (-9223372036854775808)]) = true ∧
    (∃ last left, Interleaving start
        ([request 0, request 1].map fun request => ⟨request.account, request.script⟩) tokens last
        left ∧
      Term.AreDistinct tokens ∧ Term.AreDistinct (left.filterMap Thread.value?) ∧
      (left.filterMap Thread.value?).length = 2 ∧ start.Accounts last) ∧
    ∀ context : SharedContext 2 Unit, Term.AreDistinct ((context.performAll
      ([request 0, request 1].map fun request =>
        (request.account, request.machine.fresh request.sort))).1.filterMap Except.toOption) := by
  obtain ⟨hinterleavings, -, -, -, hvalues, -⟩ := fresh_values_distinct_and_counted 2 Unit
  obtain ⟨last, left, hinterleaving, hleft⟩ := interleaving
  obtain ⟨hdistinct, -, haccounts⟩ := hinterleavings start last _ left tokens hinterleaving
  have hlength : [request 0, request 1].length ≤ 2 ^ 64 := by decide
  have htokens : tokens.length ≤ 2 ^ 64 := by decide
  obtain ⟨hinterleaved, hperformed⟩ := hvalues [request 0, request 1] hlength
  have hvalues := hinterleaved start last tokens left hinterleaving
  have htwo : (left.filterMap Thread.value?).length = 2 := by
    rw [hleft]
    rfl
  exact ⟨hlength, htokens, by decide +kernel,
    ⟨last, left, hinterleaving, hdistinct htokens, hvalues, htwo, haccounts⟩, hperformed⟩

end Turns

end SymbolicRewriting
