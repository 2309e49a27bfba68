import SymbolicRewriting.Proofs.DistinctMatches
import SymbolicRewriting.Proofs.MatchedVariables

/-!
# Tables of substitutions

However substitutions are filled and merged, each of them only grows: its variables and its writes stay
distinct, and a bound variable keeps its value. So what a merge does can be read off the two
substitutions. It goes through the bindings of the other one in order, takes over those of unbound
variables, and ends at the first that disagrees.
-/

namespace SymbolicRewriting

open List

namespace Substitution

variable {subst grown other : Substitution}

/-- No variable is bound twice, and no pair of cells is recorded twice. -/
structure Consistent (subst : Substitution) : Prop where
  keys : (subst.bindings.map Prod.fst).Nodup
  writes : subst.writes.Nodup

theorem consistent_empty : empty.Consistent :=
  ⟨nodup_nil, nodup_nil⟩

theorem Extends.get? (hextends : subst.Extends grown) {v : Variable} {value : Term}
    (hget : subst.get? v = some value) : grown.get? v = some value := by
  obtain ⟨binding, hfound, rfl⟩ := Option.map_eq_some_iff.1 hget
  obtain ⟨later, hlater⟩ := hextends.bindings
  rw [Substitution.get?, ← hlater, find?_append, hfound]
  rfl

/-- The one substitution has been made from the other, and it is consistent if that was. -/
structure Grows (subst grown : Substitution) : Prop extends subst.Extends grown where
  consistent : subst.Consistent → grown.Consistent

theorem Grows.refl (subst : Substitution) : subst.Grows subst :=
  ⟨.refl subst, id⟩

theorem Grows.trans {middle : Substitution} (hfirst : subst.Grows middle)
    (hsecond : middle.Grows grown) : subst.Grows grown :=
  ⟨hfirst.toExtends.trans hsecond.toExtends, hsecond.consistent ∘ hfirst.consistent⟩

theorem grows_push {v : Variable} (hunbound : subst.get? v = none) (term : Term) :
    subst.Grows (subst.push v term) where
  toExtends := extends_push subst v term
  consistent hconsistent := ⟨nodup_keys_push hconsistent.keys hunbound term, hconsistent.writes⟩

theorem grows_bind {v : Variable} {term : Term} (hbind : subst.bind v term = .ok grown) :
    subst.Grows grown := by
  unfold bind at hbind
  split at hbind
  · split at hbind
    · cases hbind
      exact .refl subst
    · cases hbind
  · rename_i hunbound
    cases hbind
    exact grows_push hunbound term

theorem grows_bindIfUnbound (subst : Substitution) (v : Variable) (term : Term) :
    subst.Grows (subst.bindIfUnbound v term) := by
  unfold bindIfUnbound
  split
  · exact .refl subst
  · rename_i hunbound
    exact grows_push (by simpa [isBound] using hunbound) term

theorem grows_recordCell (subst : Substitution) (pattern target : CellId) :
    subst.Grows (subst.recordCell pattern target) where
  toExtends := extends_recordCell subst pattern target
  consistent hconsistent := by
    unfold recordCell
    split
    · exact hconsistent
    · rename_i hnew
      rw [contains_iff_mem] at hnew
      exact ⟨hconsistent.keys,
        hconsistent.writes.append (nodup_singleton _) (disjoint_singleton.2 hnew)⟩

theorem grows_bindAll (subst : Substitution) (bindings : List (Variable × Term)) :
    subst.Grows (subst.bindAll bindings).1 := by
  induction bindings generalizing subst with
  | nil => exact .refl subst
  | cons binding bindings ih =>
      unfold bindAll
      split
      · rename_i hbind
        exact (grows_bind hbind).trans (ih _)
      · exact .refl subst

theorem grows_recordAll (subst : Substitution) (writes : List CellWrite) :
    subst.Grows (subst.recordAll writes) := by
  induction writes generalizing subst with
  | nil => exact .refl subst
  | cons write writes ih => exact (subst.grows_recordCell write.pattern write.target).trans (ih _)

theorem grows_merge (subst other : Substitution) : subst.Grows (subst.merge other).1 := by
  have hbound := subst.grows_bindAll other.bindings
  unfold merge
  split
  · rename_i hbindings
    rw [hbindings] at hbound
    exact hbound.trans (grows_recordAll _ other.writes)
  · exact hbound

/-! ### What a merge comes to -/

/-- The bindings do not contradict the substitution. -/
def AgreesOn (subst : Substitution) (bindings : List (Variable × Term)) : Prop :=
  ∀ binding ∈ bindings, ∀ existing, subst.get? binding.1 = some existing →
    existing.EqualTo binding.2

/-- The conflict is with the first of the bindings that contradicts the substitution. -/
structure FirstConflict (subst : Substitution) (bindings before : List (Variable × Term))
    (conflict : BindingConflict) : Prop where
  starts : before ++ [(conflict.var, conflict.incoming)] <+: bindings
  agrees : subst.AgreesOn before
  existing : subst.get? conflict.var = some conflict.existing
  differs : ¬conflict.existing.EqualTo conflict.incoming

/-- The bindings of unbound variables come after those that exist. -/
def takeOver (subst : Substitution) (bindings : List (Variable × Term)) : Substitution :=
  { subst with
    bindings := subst.bindings ++ bindings.filter fun binding => !subst.isBound binding.1 }

theorem get?_takeOver (subst : Substitution) (bindings : List (Variable × Term)) (v : Variable) :
    (subst.takeOver bindings).get? v =
      (subst.get? v).or ((bindings.find? fun binding => binding.1 == v).map Prod.snd) := by
  rw [get?, takeOver, find?_append, Option.map_or, ← get?]
  cases hget : subst.get? v with
  | some value => rfl
  | none =>
      have hkeeps : (fun binding : Variable × Term =>
          decide ((!subst.isBound binding.1) = true ∧ (binding.1 == v) = true)) =
            fun binding => binding.1 == v := by
        funext binding
        by_cases heq : binding.1 = v
        · simp [heq, isBound, hget]
        · simp [heq]
      rw [find?_filter, Option.none_or, Option.none_or, hkeeps]

theorem takeOver_cons_of_isBound {v : Variable} (hbound : subst.isBound v = true) (term : Term)
    (bindings : List (Variable × Term)) :
    subst.takeOver ((v, term) :: bindings) = subst.takeOver bindings := by
  simp [takeOver, hbound]

/-- The new binding is for none of the others. -/
theorem takeOver_cons_of_unbound {v : Variable} (hunbound : subst.get? v = none) (term : Term)
    {bindings : List (Variable × Term)} (hnew : v ∉ bindings.map Prod.fst) :
    subst.takeOver ((v, term) :: bindings) = (subst.push v term).takeOver bindings := by
  have hkeeps : ∀ binding ∈ bindings,
      (!subst.isBound binding.1) = !(subst.push v term).isBound binding.1 := by
    intro binding hmem
    have hne : v ≠ binding.1 := by
      rintro rfl
      exact hnew (mem_map_of_mem hmem)
    rw [isBound, isBound, get?_push hunbound, if_neg hne]
  rw [takeOver, filter_cons_of_pos (by rw [isBound, hunbound]; rfl), filter_congr hkeeps, takeOver,
    push, append_assoc]
  rfl

theorem bindAll_of_agreesOn {bindings : List (Variable × Term)}
    (hdistinct : (bindings.map Prod.fst).Nodup) (hagrees : subst.AgreesOn bindings) :
    subst.bindAll bindings = (subst.takeOver bindings, none) := by
  induction bindings generalizing subst with
  | nil => simp [bindAll, takeOver]
  | cons binding bindings ih =>
      obtain ⟨v, term⟩ := binding
      obtain ⟨hnew, hdistinct⟩ := nodup_cons.1 hdistinct
      obtain ⟨hfirst, hothers⟩ := forall_mem_cons.1 hagrees
      cases hget : subst.get? v with
      | some existing =>
          have hbind : subst.bind v term = .ok subst := by
            rw [bind, hget]
            exact if_pos (hfirst existing hget)
          have hbound : subst.isBound v = true := by rw [isBound, hget]; rfl
          rw [bindAll, hbind, takeOver_cons_of_isBound hbound]
          exact ih hdistinct hothers
      | none =>
          have hbind : subst.bind v term = .ok (subst.push v term) := by rw [bind, hget]
          have hpushed : (subst.push v term).AgreesOn bindings := by
            intro later hmem existing hexisting
            have hne : v ≠ later.1 := by
              rintro rfl
              exact hnew (mem_map.2 ⟨later, hmem, rfl⟩)
            rw [get?_push hget, if_neg hne] at hexisting
            exact hothers later hmem existing hexisting
          rw [bindAll, hbind, takeOver_cons_of_unbound hget term hnew]
          exact ih hdistinct hpushed

theorem bindAll_append {before : List (Variable × Term)} (hbefore : subst.bindAll before = (grown, none))
    (after : List (Variable × Term)) : subst.bindAll (before ++ after) = grown.bindAll after := by
  induction before generalizing subst with
  | nil =>
      cases hbefore
      rfl
  | cons binding before ih =>
      rw [cons_append, bindAll]
      rw [bindAll] at hbefore
      split at hbefore
      · exact ih hbefore
      · cases hbefore

theorem bindAll_of_firstConflict {bindings before : List (Variable × Term)}
    {conflict : BindingConflict} (hdistinct : (bindings.map Prod.fst).Nodup)
    (hfirst : subst.FirstConflict bindings before conflict) :
    subst.bindAll bindings = (subst.takeOver before, some conflict) := by
  obtain ⟨⟨after, rfl⟩, hagrees, hexisting, hdiffers⟩ := hfirst
  rw [append_assoc] at hdistinct ⊢
  rw [map_append] at hdistinct
  have hbefore := bindAll_of_agreesOn hdistinct.of_append_left hagrees
  have hbind : (subst.takeOver before).bind conflict.var conflict.incoming = .error conflict := by
    rw [bind, get?_takeOver, hexisting]
    exact if_neg hdiffers
  rw [bindAll_append hbefore, cons_append, bindAll, hbind]

theorem agreesOn_or_firstConflict (subst : Substitution) (bindings : List (Variable × Term)) :
    subst.AgreesOn bindings ∨ ∃ before conflict, subst.FirstConflict bindings before conflict := by
  induction bindings with
  | nil => exact .inl (forall_mem_nil _)
  | cons binding bindings ih =>
      by_cases hagrees : ∀ existing, subst.get? binding.1 = some existing →
          existing.EqualTo binding.2
      · rcases ih with hothers | ⟨before, conflict, hstarts, hothers, hexisting, hdiffers⟩
        · exact .inl (forall_mem_cons.2 ⟨hagrees, hothers⟩)
        · exact .inr ⟨binding :: before, conflict, (prefix_cons_inj binding).2 hstarts,
            forall_mem_cons.2 ⟨hagrees, hothers⟩, hexisting, hdiffers⟩
      · push Not at hagrees
        obtain ⟨existing, hexisting, hdiffers⟩ := hagrees
        exact .inr ⟨[], ⟨binding.1, existing, binding.2⟩, ⟨bindings, rfl⟩, forall_mem_nil _,
          hexisting, hdiffers⟩

theorem recordAll_eq {writes : List CellWrite} (hdistinct : writes.Nodup) (subst : Substitution) :
    subst.recordAll writes =
      { subst with writes := subst.writes ++ writes.filter (· ∉ subst.writes) } := by
  induction writes generalizing subst with
  | nil => simp [recordAll]
  | cons write writes ih =>
      obtain ⟨hnew, hdistinct⟩ := nodup_cons.1 hdistinct
      rw [recordAll, foldl_cons, ← recordAll, ih hdistinct]
      by_cases hmem : write ∈ subst.writes
      · simp [recordCell, hmem]
      · have hrecord : subst.recordCell write.pattern write.target =
            { subst with writes := subst.writes ++ [write] } :=
          if_neg (mt contains_iff_mem.1 hmem)
        have hkeeps : ∀ later ∈ writes,
            decide (later ∉ subst.writes ++ [write]) = decide (later ∉ subst.writes) := by
          intro later hlater
          have hne : later ≠ write := fun heq => hnew (heq ▸ hlater)
          simp [hne]
        rw [hrecord, filter_congr hkeeps, filter_cons_of_pos (by simpa using hmem), append_assoc]
        rfl

theorem agreesOn_bindings_iff (hother : other.Consistent) : subst.AgreesOn other.bindings ↔
    ∀ v existing incoming, subst.get? v = some existing → other.get? v = some incoming →
      existing.EqualTo incoming := by
  constructor
  · intro hagrees v existing incoming hexisting hincoming
    exact hagrees _ (mem_bindings_of_get? hincoming) existing hexisting
  · intro hagrees binding hmem existing hexisting
    exact hagrees _ _ _ hexisting (get?_of_mem_bindings hother.keys hmem)

theorem merge_of_agreesOn (hother : other.Consistent) (hagrees : subst.AgreesOn other.bindings) :
    subst.merge other = (⟨(subst.takeOver other.bindings).bindings,
      subst.writes ++ other.writes.filter (· ∉ subst.writes)⟩, none) := by
  rw [merge, bindAll_of_agreesOn hother.keys hagrees]
  dsimp only
  rw [recordAll_eq hother.writes]
  rfl

theorem merge_of_firstConflict (hother : other.Consistent) {before : List (Variable × Term)}
    {conflict : BindingConflict} (hfirst : subst.FirstConflict other.bindings before conflict) :
    subst.merge other = (subst.takeOver before, some conflict) := by
  rw [merge, bindAll_of_firstConflict hother.keys hfirst]

end Substitution

/-- A call that fills one of several substitutions. -/
inductive TableCall (ι : Type)
  | bind (name : ι) (v : Variable) (term : Term)
  | bindIfUnbound (name : ι) (v : Variable) (term : Term)
  | merge (name other : ι)
  | recordCell (name : ι) (pattern target : CellId)

namespace TableCall

variable {ι : Type}

def name : TableCall ι → ι
  | bind name _ _ => name
  | bindIfUnbound name _ _ => name
  | merge name _ => name
  | recordCell name _ _ => name

/-- What the call leaves behind, also if it fails. -/
def result (table : ι → Substitution) : TableCall ι → Substitution
  | bind name v term => ((table name).bind v term).toOption.getD (table name)
  | bindIfUnbound name v term => (table name).bindIfUnbound v term
  | merge name other => ((table name).merge (table other)).1
  | recordCell name pattern target => (table name).recordCell pattern target

variable [DecidableEq ι]

def perform (table : ι → Substitution) (call : TableCall ι) : ι → Substitution :=
  Function.update table call.name (call.result table)

/-- One call after another, on substitutions that are empty at first. -/
def reached (calls : List (TableCall ι)) : ι → Substitution :=
  calls.foldl perform fun _ => .empty

theorem grows_perform (table : ι → Substitution) (call : TableCall ι) (name : ι) :
    (table name).Grows (perform table call name) := by
  by_cases hname : name = call.name
  · subst hname
    rw [perform, Function.update_self]
    cases call with
    | bind name v term =>
        change (table name).Grows (((table name).bind v term).toOption.getD (table name))
        cases hbind : (table name).bind v term with
        | ok grown => exact Substitution.grows_bind hbind
        | error conflict => exact .refl (table name)
    | bindIfUnbound name v term => exact (table name).grows_bindIfUnbound v term
    | merge name other => exact (table name).grows_merge (table other)
    | recordCell name pattern target => exact (table name).grows_recordCell pattern target
  · rw [perform, Function.update_of_ne hname]
    exact .refl (table name)

/-- By induction on the calls. -/
theorem grows_foldl (calls : List (TableCall ι)) (table : ι → Substitution) (name : ι) :
    (table name).Grows (calls.foldl perform table name) := by
  induction calls generalizing table with
  | nil => exact .refl (table name)
  | cons call calls ih => exact (grows_perform table call name).trans (ih _)

theorem grows_reached (calls later : List (TableCall ι)) (name : ι) :
    (reached calls name).Grows (reached (calls ++ later) name) := by
  rw [reached, reached, foldl_append]
  exact grows_foldl later _ name

theorem consistent_reached (calls : List (TableCall ι)) (name : ι) :
    (reached calls name).Consistent :=
  (grows_foldl calls _ name).consistent Substitution.consistent_empty

/-- Whatever has been called, the substitutions are consistent, and a bound variable keeps its value. A
merge succeeds if no variable has unequal values in the two, and the values and writes that exist take
precedence. Else it ends at the first binding that disagrees: the bindings before it have been taken over,
and no writes. -/
theorem tables_stay_consistent (calls : List (TableCall ι)) :
    (∀ name, ((reached calls name).bindings.map Prod.fst).Nodup ∧ (reached calls name).writes.Nodup) ∧
    (∀ name v value, (reached calls name).get? v = some value →
      ∀ later, (reached (calls ++ later) name).get? v = some value) ∧
    ∀ name other subst source merged outcome,
      reached calls name = subst → reached calls other = source →
      subst.merge source = (merged, outcome) →
        reached (calls ++ [.merge name other]) name = merged ∧
        (outcome = none ↔ ∀ v existing incoming, subst.get? v = some existing →
          source.get? v = some incoming → existing.EqualTo incoming) ∧
        (outcome = none → (∀ v, merged.get? v = (subst.get? v).or (source.get? v)) ∧
          merged.writes = subst.writes ++ source.writes.filter (· ∉ subst.writes)) ∧
        ∀ conflict, outcome = some conflict →
          ∃ before, subst.FirstConflict source.bindings before conflict ∧
            merged.bindings = subst.bindings ++
              before.filter (fun binding => !subst.isBound binding.1) ∧
            merged.writes = subst.writes := by
  refine ⟨fun name => ⟨(consistent_reached calls name).keys, (consistent_reached calls name).writes⟩,
    fun name v value hget later => (grows_reached calls later name).toExtends.get? hget, ?_⟩
  rintro name other subst source merged outcome rfl rfl hmerge
  have hother := consistent_reached calls other
  refine ⟨?_, ?_⟩
  · rw [reached, foldl_append, foldl_cons, foldl_nil, perform, TableCall.name, Function.update_self]
    exact congrArg Prod.fst hmerge
  · rw [← Substitution.agreesOn_bindings_iff hother]
    rcases (reached calls name).agreesOn_or_firstConflict (reached calls other).bindings with
      hagrees | ⟨before, conflict, hfirst⟩
    · rw [Substitution.merge_of_agreesOn hother hagrees] at hmerge
      cases hmerge
      exact ⟨iff_of_true rfl hagrees,
        fun _ => ⟨Substitution.get?_takeOver _ _, rfl⟩, nofun⟩
    · rw [Substitution.merge_of_firstConflict hother hfirst] at hmerge
      cases hmerge
      have hdisagrees : ¬(reached calls name).AgreesOn (reached calls other).bindings :=
        fun hagrees => hfirst.differs (hagrees _ (hfirst.starts.subset mem_concat_self) _
          hfirst.existing)
      refine ⟨iff_of_false nofun hdisagrees, nofun, ?_⟩
      rintro _ ⟨⟩
      exact ⟨before, hfirst, rfl, rfl⟩

end TableCall

namespace Sharing

def shared : Variable := ⟨"X", Symbol.top, .plain⟩

def count : Variable := ⟨"N", Symbol.int, .plain⟩

def others : Variable := ⟨"REST", Symbol.top, .rest⟩

def last : Variable := ⟨"LAST", Symbol.int, .plain⟩

/-- Cells with the same content are equal, whatever their identities. -/
def cell (id : CellId) : Term := .collection [⟨id, "k", .int 1⟩] none

/-- The two tables agree on the first variable that they share, and not on the second. -/
def calls : List (TableCall String) :=
  [.bind "left" shared (cell 1), .bindIfUnbound "left" count (.int 2), .bind "left" count (.int 3),
    .recordCell "left" 6 1, .bindIfUnbound "right" others (.int 5), .bind "right" shared (cell 2),
    .bind "right" count (.int 4), .bind "right" last (.int 7), .recordCell "right" 8 2]

/-- The merge keeps the cell that was there first and takes over one binding before it fails. -/
theorem tables_stay_consistent_sharing :
    TableCall.reached (calls ++ [.merge "left" "right"]) "left" =
      ⟨[(shared, cell 1), (count, .int 2), (others, .int 5)], [⟨6, 1⟩]⟩ ∧
    (TableCall.reached (calls ++ [.merge "left" "right"]) "left").get? shared = some (cell 1) ∧
    ∃ before, (TableCall.reached calls "left").FirstConflict
      (TableCall.reached calls "right").bindings before ⟨count, .int 2, .int 4⟩ := by
  obtain ⟨-, hkeeps, hmerges⟩ := TableCall.tables_stay_consistent calls
  have hmerge : (TableCall.reached calls "left").merge (TableCall.reached calls "right") =
      (⟨[(shared, cell 1), (count, .int 2), (others, .int 5)], [⟨6, 1⟩]⟩,
        some ⟨count, .int 2, .int 4⟩) := rfl
  obtain ⟨hreached, -, -, hconflict⟩ := hmerges "left" "right" _ _ _ _ rfl rfl hmerge
  obtain ⟨before, hfirst, -⟩ := hconflict _ rfl
  exact ⟨hreached, hkeeps "left" shared (cell 1) rfl _, before, hfirst⟩

end Sharing

end SymbolicRewriting
