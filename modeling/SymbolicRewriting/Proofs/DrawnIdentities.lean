import SymbolicRewriting.Proofs.Compositional
import SymbolicRewriting.Proofs.DirectSteps
import SymbolicRewriting.Proofs.MatchedIdentities

/-!
The identities in what a run builds. What is built from a match holds the identities that the match
supplies and those that have been drawn meanwhile, and as long as the word has not wrapped around nothing
is drawn twice.
-/

namespace SymbolicRewriting

open List

variable {σ α β : Type}

/-- What has been drawn while the count went from one number to another. -/
def drawnBetween (first last : Nat) : Multiset CellId :=
  ↑((range' first (last - first)).map UInt32.ofNat)

theorem drawnBetween_succ (count : Nat) :
    drawnBetween count (count + 1) = {UInt32.ofNat count} := by
  rw [drawnBetween, Nat.add_sub_cancel_left]
  rfl

theorem drawnBetween_add {first middle last : Nat} (hfirst : first ≤ middle)
    (hlast : middle ≤ last) :
    drawnBetween first middle + drawnBetween middle last = drawnBetween first last := by
  have hmiddle : middle = first + 1 * (middle - first) := by omega
  have hlength : last - first = (middle - first) + (last - middle) := by omega
  unfold drawnBetween
  rw [Multiset.coe_add, ← map_append, hlength, ← range'_append, ← hmiddle]

theorem drawnBetween_le {first middle last : Nat} (hfirst : first ≤ middle) (hlast : middle ≤ last) :
    drawnBetween first middle ≤ drawnBetween first last := by
  rw [← drawnBetween_add hfirst hlast]
  exact Multiset.le_add_right _ _

theorem drawnBetween_le' {first middle last : Nat} (hfirst : first ≤ middle) (hlast : middle ≤ last) :
    drawnBetween middle last ≤ drawnBetween first last := by
  rw [← drawnBetween_add hfirst hlast]
  exact Multiset.le_add_left _ _

theorem mem_drawnBetween {first last : Nat} {id : CellId} (hlast : last ≤ 2 ^ 32)
    (hmem : id ∈ drawnBetween first last) : first ≤ id.toNat ∧ id.toNat < last := by
  obtain ⟨count, hcount, rfl⟩ := List.mem_map.1 (Multiset.mem_coe.1 hmem)
  rw [mem_range'_1] at hcount
  rw [UInt32.toNat_ofNat', Nat.mod_eq_of_lt (by omega)]
  omega

theorem nodup_drawnBetween {first last : Nat} (hlast : last ≤ 2 ^ 32) :
    (drawnBetween first last).Nodup := by
  refine Multiset.coe_nodup.2 (Nodup.map_on (fun count hcount other hother hequal => ?_) nodup_range')
  rw [mem_range'_1] at hcount hother
  have hwords := congrArg UInt32.toNat hequal
  rw [UInt32.toNat_ofNat', UInt32.toNat_ofNat', Nat.mod_eq_of_lt (by omega),
    Nat.mod_eq_of_lt (by omega)] at hwords
  exact hwords

namespace Run

theorem ensures_true (run : Run σ α) : run.Ensures fun _ => True := fun _ _ _ _ => True.intro

/-- The count of the identities that have been drawn does not go back. -/
def Advances (run : Run σ α) : Prop :=
  ∀ start value next, run start = .ok value next → start.cellsDrawn ≤ next.cellsDrawn

theorem advances_modifyGet {update : RunState σ → α × RunState σ}
    (hupdate : ∀ state, state.cellsDrawn ≤ (update state).2.cellsDrawn) :
    (MonadStateOf.modifyGet update : Run σ α).Advances := by
  intro start value next hrun
  cases hrun
  exact hupdate start

theorem advances_record (update : Metrics → Metrics) : (record update : Run σ Unit).Advances :=
  advances_modifyGet fun _ => Nat.le_refl _

/-- No part of an operation takes back an identity. -/
theorem compositional_advances : Compositional fun α (run : Run σ α) => run.Advances where
  of_pure value := by
    intro start result next hrun
    obtain ⟨-, rfl⟩ := pure_eq_ok.1 hrun
    exact Nat.le_refl _
  of_throw error := fun _ _ _ hrun => nomatch hrun
  bind hrun hcontinuation := by
    intro start value next hvalue
    obtain ⟨middle, between, hmiddle, hvalue⟩ := bind_eq_ok.1 hvalue
    exact (hrun start middle between hmiddle).trans (hcontinuation middle between value next hvalue)
  drawCell := advances_modifyGet fun _ => Nat.le_succ _
  drawToken := by
    intro start value next hrun
    cases hrun
    exact Nat.le_refl _
  record update _ := advances_record update
  recordStep := advances_record _
  ask _ := advances_modifyGet fun _ => Nat.le_refl _

/-- The value holds no identity more often than the supply and what is drawn do. -/
def Draws (run : Run σ α) (held : α → Multiset CellId) (supply : Multiset CellId) : Prop :=
  ∀ start value next, run start = .ok value next → start.cellsDrawn ≤ next.cellsDrawn ∧
    held value ≤ supply + drawnBetween start.cellsDrawn next.cellsDrawn

namespace Draws

variable {held : α → Multiset CellId} {post : β → Multiset CellId} {supply more : Multiset CellId}

theorem of_pure {value : α} (hle : held value ≤ supply) :
    (pure value : Run σ α).Draws held supply := by
  intro start result next hrun
  obtain ⟨rfl, rfl⟩ := pure_eq_ok.1 hrun
  exact ⟨Nat.le_refl _, hle.trans (Multiset.le_add_right _ _)⟩

theorem mono {run : Run σ α} (hrun : run.Draws held supply) (hle : supply ≤ more) :
    run.Draws held more := by
  intro start value next hvalue
  obtain ⟨hcount, hheld⟩ := hrun start value next hvalue
  exact ⟨hcount, hheld.trans (add_le_add hle (le_refl _))⟩

/-- What the first run returns is at hand when the second one goes on. -/
theorem bind {run : Run σ α} {continuation : α → Run σ β} (hrun : run.Draws held supply)
    (hcontinuation : ∀ value, (continuation value).Draws post (held value + more)) :
    (run >>= continuation).Draws post (supply + more) := by
  intro start value next hvalue
  obtain ⟨middle, between, hmiddle, hvalue⟩ := bind_eq_ok.1 hvalue
  obtain ⟨hfirst, hheld⟩ := hrun start middle between hmiddle
  obtain ⟨hsecond, hpost⟩ := hcontinuation middle between value next hvalue
  refine ⟨hfirst.trans hsecond, ?_⟩
  calc
    post value ≤ held middle + more + drawnBetween between.cellsDrawn next.cellsDrawn := hpost
    _ ≤ supply + drawnBetween start.cellsDrawn between.cellsDrawn + more +
        drawnBetween between.cellsDrawn next.cellsDrawn := by gcongr
    _ = supply + more + drawnBetween start.cellsDrawn next.cellsDrawn := by
      rw [← drawnBetween_add hfirst hsecond, ← add_assoc, add_right_comm supply]

theorem of_advances {run : Run σ α} {continuation : α → Run σ β} {fact : α → Prop}
    (hrun : run.Advances) (hensures : run.Ensures fact)
    (hcontinuation : ∀ value, fact value → (continuation value).Draws post supply) :
    (run >>= continuation).Draws post supply := by
  intro start value next hvalue
  obtain ⟨middle, between, hmiddle, hvalue⟩ := bind_eq_ok.1 hvalue
  have hfirst := hrun start middle between hmiddle
  obtain ⟨hsecond, hpost⟩ := hcontinuation middle (hensures start middle between hmiddle)
    between value next hvalue
  refine ⟨hfirst.trans hsecond, hpost.trans ?_⟩
  exact add_le_add (le_refl _) (drawnBetween_le' hfirst hsecond)

end Draws

end Run

namespace Definition

variable {definition : Definition} {call : Caller σ} {subst : Substitution}

theorem draws_cellId (subst : Substitution) (id : CellId) :
    (BuildMode.instantiate.cellId subst id : Run σ CellId).Draws ({·}) (subst.targetIdentities id) := by
  unfold BuildMode.cellId Substitution.targetIdentities
  cases subst.targetOf id with
  | some target => exact .of_pure (le_refl _)
  | none =>
      intro start value next hrun
      cases hrun
      refine ⟨Nat.le_succ _, ?_⟩
      rw [Option.elim_none, zero_add, drawnBetween_succ]
      exact le_refl _

theorem draws_buildTerms {terms : List Term}
    (hterms : ∀ term ∈ terms, (definition.buildTerm call subst .instantiate term).Draws
      Term.identities (subst.supply term)) :
    (definition.buildTerms call subst .instantiate terms).Draws
      (fun built => (built.map Term.identities).sum) (terms.map subst.supply).sum := by
  induction terms with
  | nil => exact .of_pure (le_refl _)
  | cons term terms ih =>
      obtain ⟨hfirst, hothers⟩ := List.forall_mem_cons.1 hterms
      rw [map_cons, sum_cons]
      refine hfirst.bind fun first => ?_
      rw [add_comm]
      refine (ih hothers).bind fun others => .of_pure ?_
      rw [map_cons, sum_cons, add_comm]

theorem draws_buildCells {cells : List (Cell Term)}
    (hcells : ∀ cell ∈ cells, (definition.buildTerm call subst .instantiate cell.content).Draws
      Term.identities (subst.supply cell.content)) :
    (definition.buildCells call subst .instantiate cells).Draws
      (fun built => (built.map Cell.identities).sum)
      (cells.map fun cell => subst.targetIdentities cell.id + subst.supply cell.content).sum := by
  induction cells with
  | nil => exact .of_pure (le_refl _)
  | cons cell cells ih =>
      obtain ⟨hfirst, hothers⟩ := List.forall_mem_cons.1 hcells
      obtain ⟨id, name, content⟩ := cell
      rw [map_cons, sum_cons]
      generalize (cells.map fun cell =>
        subst.targetIdentities cell.id + subst.supply cell.content).sum = rest at ih ⊢
      rw [add_right_comm, add_comm _ (subst.supply content)]
      refine hfirst.bind fun built => ?_
      rw [add_left_comm]
      refine (draws_cellId subst id).bind fun identity => ?_
      rw [← add_assoc, add_comm _ rest]
      refine (ih hothers).bind fun others => .of_pure ?_
      rw [map_cons, sum_cons, add_comm]
      exact le_refl _

/-- A term without calls is built from what the match supplies for it and from new identities. -/
theorem draws_buildTerm {term : Term} (hcalls : definition.CallFree term) :
    (definition.buildTerm call subst .instantiate term).Draws Term.identities
      (subst.supply term) := by
  induction term using Term.nestedInduction with
  | token sort value =>
      refine .of_pure ?_
      rw [Term.identities_token]
      exact Multiset.zero_le _
  | var v =>
      refine .of_pure ?_
      rw [subst.supply_var, Substitution.boundIdentities]
      cases subst.get? v with
      | none =>
          rw [Option.getD_none, Term.identities_var]
          exact Multiset.zero_le _
      | some value => exact le_refl _
  | app label args ih =>
      have hlabel : ¬definition.isFunction label = true := fun hlabel =>
        hcalls _ (Term.self_mem_subterms _) ⟨label, args, rfl, hlabel⟩
      rw [subst.supply_app, ← add_zero (args.map subst.supply).sum]
      refine (draws_buildTerms fun arg harg => ih arg harg (hcalls.child harg)).bind fun built => ?_
      rw [if_neg hlabel]
      refine .of_pure ?_
      rw [Term.identities_app, add_zero]
  | sequence op items ih =>
      rw [subst.supply_sequence, ← add_zero (items.map subst.supply).sum]
      refine (draws_buildTerms fun item hitem => ih item hitem (hcalls.child hitem)).bind
        fun built => .of_pure ?_
      rw [Term.identities_flatten, add_zero]
  | collection cells frame ih =>
      have hchild : ∀ cell ∈ cells, definition.CallFree cell.content := fun cell hcell =>
        hcalls.child (List.mem_map_of_mem hcell)
      have hframe : (Term.frameBinding subst frame).elim 0 Term.identities =
          frame.elim 0 subst.boundIdentities := by
        cases frame <;> rfl
      rw [subst.supply_collection]
      refine (draws_buildCells fun cell hcell => ih cell hcell (hchild cell hcell)).bind
        fun built => .of_pure ?_
      rw [← hframe]
      exact Term.identities_closeWith_le built frame _

/-- A rule whose right side calls no function, asks for no fresh value, and uses each variable and each
cell identity once. -/
structure Linear (definition : Definition) (rule : Rule) : Prop where
  callFree : definition.CallFree rule.rhs
  notFresh : ∀ v ∈ rule.rhs.varOccurrences, v.isFresh = false
  vars : rule.rhs.varOccurrences.Nodup
  cells : rule.rhs.cellIds.Nodup

/-- Fresh values are bound to unbound variables of the list only. -/
theorem ensures_bindFreshVars (vars : List Variable) (subst : Substitution) :
    (definition.bindFreshVars call vars subst).Ensures fun extended =>
      extended.writes = subst.writes ∧
        ∀ v, (v ∈ vars → subst.isBound v = true) → extended.get? v = subst.get? v := by
  induction vars generalizing subst with
  | nil => exact Run.Ensures.of_pure ⟨rfl, fun _ _ => rfl⟩
  | cons v vars ih =>
      unfold bindFreshVars
      split
      · exact (ih subst).mono fun extended hextended =>
          ⟨hextended.1, fun w hw => hextended.2 w fun hmem => hw (mem_cons_of_mem v hmem)⟩
      · rename_i hunbound
        refine Run.Ensures.bind_of_forall fun value => ?_
        refine (ih _).mono fun extended hextended => ?_
        rw [Substitution.bindIfUnbound, if_neg hunbound] at hextended
        have hget : subst.get? v = none := Option.not_isSome_iff_eq_none.1 hunbound
        refine ⟨hextended.1, fun w hw => ?_⟩
        have hne : v ≠ w := fun heq => hunbound (heq ▸ hw (heq ▸ mem_cons_self))
        have hpush : (subst.push v value).get? w = subst.get? w := by
          rw [Substitution.get?_push hget, if_neg hne]
        refine (hextended.2 w fun hmem => ?_).trans hpush
        rw [Substitution.isBound, hpush]
        exact hw (mem_cons_of_mem v hmem)

theorem draws_buildRight {rule : Rule} (hlinear : definition.Linear rule)
    (hcall : ∀ label args, (call label args).Advances) (subst : Substitution) :
    (definition.buildRight call rule subst).Draws Term.identities subst.identities := by
  refine .of_advances (Run.compositional_advances.bindFreshVars hcall rule.freshVars subst)
    (ensures_bindFreshVars rule.freshVars subst) fun extended hextended => ?_
  have hsupply : extended.supply rule.rhs = subst.supply rule.rhs := by
    unfold Substitution.supply
    congr 2
    · refine map_congr_left fun v hv => ?_
      rw [Substitution.boundIdentities, Substitution.boundIdentities,
        hextended.2 v fun hmem => ?_]
      have hfresh : v.isFresh = true := (List.mem_filter.1 hmem).2
      rw [hlinear.notFresh v hv] at hfresh
      cases hfresh
    · refine map_congr_left fun id _ => ?_
      simp only [Substitution.targetIdentities, Substitution.targetOf, hextended.1]
  have hdraws : (definition.buildTerm call extended .instantiate rule.rhs).Draws Term.identities
      (extended.supply rule.rhs) := draws_buildTerm hlinear.callFree
  rw [hsupply] at hdraws
  exact hdraws.mono (subst.supply_le hlinear.vars hlinear.cells)

end Definition

end SymbolicRewriting
