import Mathlib.Logic.Relation
import SymbolicRewriting.Definition.Basic

/-!
The order of sorts. Closing the table of sorts follows its entries to all sorts above, so one sort is
below another exactly if the declared pairs lead from the one to the other. Hence the order is
transitive, unless there are sorts declared above the top sort.
-/

namespace SymbolicRewriting

open Relation

namespace SortTable

variable {table : SortTable} {origin : SortName}

/-- Entries lead, in any number of steps, from the one sort to the other. -/
def Reaches (table : SortTable) : SortName → SortName → Prop :=
  ReflTransGen fun sub sup => sup ∈ table.above sub

theorem subset_reach {reached : Std.HashSet SortName} {stack : List SortName} {sort : SortName}
    (hmem : sort ∈ reached) : sort ∈ table.reach origin reached stack := by
  fun_induction reach table origin reached stack with
  | case1 reached => exact hmem
  | case2 reached first rest hskip ih => exact ih hmem
  | case3 reached first rest hskip ih => exact ih (Std.HashSet.mem_insert.2 (.inr hmem))

/-- Nothing is reached that cannot be followed to from the stack. -/
theorem reach_least {property : SortName → Prop}
    (hclosed : ∀ sub, property sub → ∀ sup ∈ table.above sub, property sup)
    {reached : Std.HashSet SortName} {stack : List SortName}
    (hreached : ∀ sort ∈ reached, sort ≠ origin ∧ property sort)
    (hstack : ∀ sort ∈ stack, property sort) :
    ∀ sort ∈ table.reach origin reached stack, sort ≠ origin ∧ property sort := by
  fun_induction reach table origin reached stack with
  | case1 reached => exact hreached
  | case2 reached first rest hskip ih => exact ih hreached (List.forall_mem_cons.1 hstack).2
  | case3 reached first rest hnew ih =>
      obtain ⟨hfirst, hrest⟩ := List.forall_mem_cons.1 hstack
      refine ih (fun sort hmem => ?_) (List.forall_mem_append.2 ⟨hclosed first hfirst, hrest⟩)
      rcases Std.HashSet.mem_insert.1 hmem with hsame | hold
      · rw [← beq_iff_eq.1 hsame]
        exact ⟨(not_or.1 hnew).1, hfirst⟩
      · exact hreached sort hold

/-- All of the stack is reached, and so is whatever lies above a sort that is newly reached. -/
theorem reach_closed (reached : Std.HashSet SortName) (stack : List SortName) :
    (∀ sort ∈ stack, sort ≠ origin → sort ∈ table.reach origin reached stack) ∧
      ∀ sub ∈ table.reach origin reached stack, sub ∈ reached ∨
        ∀ sup ∈ table.above sub, sup ≠ origin → sup ∈ table.reach origin reached stack := by
  fun_induction reach table origin reached stack with
  | case1 reached => exact ⟨List.forall_mem_nil _, fun sub hmem => .inl hmem⟩
  | case2 reached first rest hskip ih =>
      refine ⟨List.forall_mem_cons.2 ⟨fun hne => ?_, ih.1⟩, ih.2⟩
      exact subset_reach (hskip.resolve_left hne)
  | case3 reached first rest hnew ih =>
      obtain ⟨habove, hrest⟩ := List.forall_mem_append.1 ih.1
      have hinsert := fun sort => Std.HashSet.mem_insert (m := reached) (k := first) (a := sort)
      refine ⟨List.forall_mem_cons.2 ⟨fun _ => ?_, hrest⟩, fun sub hmem => ?_⟩
      · exact subset_reach ((hinsert first).2 (.inl (beq_self_eq_true first)))
      · rcases ih.2 sub hmem with hreached | hclosed
        · rcases (hinsert sub).1 hreached with hsame | hold
          · rw [← beq_iff_eq.1 hsame]
            exact .inr habove
          · exact .inl hold
        · exact .inr hclosed

theorem mem_reach_iff {sort : SortName} :
    sort ∈ table.reach origin ∅ (table.above origin) ↔ sort ≠ origin ∧ table.Reaches origin sort := by
  constructor
  · have hclosed : ∀ sub, table.Reaches origin sub → ∀ sup ∈ table.above sub,
        table.Reaches origin sup := fun _ hreaches _ hsup => hreaches.tail hsup
    exact reach_least hclosed (fun _ hnone => absurd hnone Std.HashSet.not_mem_empty)
      (fun _ hsup => .single hsup) sort
  · rintro ⟨hne, hreaches⟩
    obtain ⟨hstack, hclosed⟩ := @reach_closed table origin ∅ (table.above origin)
    induction hreaches with
    | refl => exact absurd rfl hne
    | @tail sub sup _ hsup ih =>
        by_cases hsub : sub = origin
        · exact hstack sup (hsub ▸ hsup) hne
        · exact (hclosed sub (ih hsub)).resolve_left Std.HashSet.not_mem_empty sup hsup hne

theorem keys_closeEntry (table : SortTable) (sort : SortName) :
    (table.closeEntry sort).keys = table.keys := by
  unfold closeEntry replace keys
  rw [List.map_map]
  refine List.map_congr_left fun entry _ => ?_
  rw [Function.comp_apply]
  split
  · rename_i hsame
    exact hsame.symm
  · rfl

theorem lookup_cons_eq_ite (key : SortName) (sups : List SortName) (rest : SortTable)
    (sort : SortName) :
    List.lookup sort ((key, sups) :: rest) = if sort = key then some sups else rest.lookup sort := by
  by_cases hsame : sort = key
  · simp [hsame]
  · rw [List.lookup_cons, beq_eq_false_iff_ne.2 hsame, if_neg hsame]

theorem lookup_replace (sort : SortName) (sups : List SortName) (other : SortName) :
    (table.replace sort sups).lookup other =
      (table.lookup other).map fun above => if other = sort then sups else above := by
  unfold replace
  induction table with
  | nil => rfl
  | cons entry rest ih =>
      obtain ⟨key, above⟩ := entry
      by_cases hsort : key = sort <;> by_cases hother : other = key <;>
        simp_all [lookup_cons_eq_ite]

theorem exists_lookup_of_mem_keys {sort : SortName} (hkey : sort ∈ table.keys) :
    ∃ above, table.lookup sort = some above := by
  obtain ⟨entry, hmem, rfl⟩ := List.mem_map.1 hkey
  refine Option.isSome_iff_exists.1 (Option.isSome_iff_ne_none.2 fun hnone => ?_)
  exact absurd (List.lookup_eq_none_iff.1 hnone entry hmem) (by simp)

/-- The entry of the sort lists every sort above it. -/
def ClosedAt (table : SortTable) (sort : SortName) : Prop :=
  ∀ sup, sup ∈ table.above sort ↔ sup ≠ sort ∧ table.Reaches sort sup

theorem mem_above_closeEntry_self_iff {sort : SortName} (hkey : sort ∈ table.keys) {sup : SortName} :
    sup ∈ (table.closeEntry sort).above sort ↔ sup ≠ sort ∧ table.Reaches sort sup := by
  obtain ⟨above, hlookup⟩ := exists_lookup_of_mem_keys hkey
  have habove : (table.closeEntry sort).above sort =
      (table.reach sort ∅ (table.above sort)).toList := by
    unfold closeEntry
    rw [SortTable.above, lookup_replace, hlookup, Option.map_some, if_pos rfl, Option.getD_some]
  rw [habove, Std.HashSet.mem_toList, mem_reach_iff]

theorem above_closeEntry_of_ne {sort other : SortName} (hne : other ≠ sort) :
    (table.closeEntry sort).above other = table.above other := by
  unfold closeEntry above
  rw [lookup_replace]
  simp [hne]

theorem reaches_closeEntry_iff {sort : SortName} (hkey : sort ∈ table.keys) {sub sup : SortName} :
    (table.closeEntry sort).Reaches sub sup ↔ table.Reaches sub sup := by
  constructor
  · refine fun hreaches => hreaches.lift' id fun first next hnext => ?_
    by_cases hfirst : first = sort
    · subst hfirst
      exact ((mem_above_closeEntry_self_iff hkey).1 hnext).2
    · exact .single (above_closeEntry_of_ne hfirst ▸ hnext)
  · refine fun hreaches => hreaches.lift' id fun first next hnext => ?_
    by_cases hfirst : first = sort
    · subst hfirst
      by_cases hsame : next = first
      · exact hsame ▸ .refl
      · exact .single ((mem_above_closeEntry_self_iff hkey).2 ⟨hsame, .single hnext⟩)
    · exact .single ((above_closeEntry_of_ne hfirst).symm ▸ hnext)

theorem closedAt_closeEntry {sort other : SortName} (hkey : sort ∈ table.keys)
    (hclosed : other = sort ∨ table.ClosedAt other) : (table.closeEntry sort).ClosedAt other := by
  intro sup
  rw [reaches_closeEntry_iff hkey]
  by_cases hsame : other = sort
  · subst hsame
    exact mem_above_closeEntry_self_iff hkey
  · rw [above_closeEntry_of_ne hsame]
    exact hclosed.resolve_left hsame sup

/-- Closing entries one after another keeps what is above each sort, and the entries that are closed
already. -/
theorem closeIn_spec {order : List SortName} (horder : order ⊆ table.keys) :
    (∀ sub sup, (table.closeIn order).Reaches sub sup ↔ table.Reaches sub sup) ∧
      ∀ sort, sort ∈ order ∨ table.ClosedAt sort → (table.closeIn order).ClosedAt sort := by
  induction order generalizing table with
  | nil => exact ⟨fun _ _ => Iff.rfl, fun _ hclosed => hclosed.resolve_left List.not_mem_nil⟩
  | cons first order ih =>
      obtain ⟨hkey, horder⟩ := List.cons_subset.1 horder
      rw [← keys_closeEntry table first] at horder
      obtain ⟨hreaches, hclosed⟩ := ih horder
      refine ⟨fun sub sup => (hreaches sub sup).trans (reaches_closeEntry_iff hkey), ?_⟩
      intro sort hsort
      rw [List.mem_cons, or_assoc, or_left_comm] at hsort
      exact hclosed sort (hsort.imp_right (closedAt_closeEntry hkey))

/-- The closed table lists for each sort the other sorts that entries lead to, in whatever order the
keys have been visited. -/
theorem mem_above_closeIn_iff {order : List SortName} (horder : order.Perm table.keys)
    {sort sup : SortName} :
    sup ∈ (table.closeIn order).above sort ↔ sup ≠ sort ∧ table.Reaches sort sup := by
  obtain ⟨hreaches, hclosed⟩ := closeIn_spec horder.subset
  suffices hsort : (table.closeIn order).ClosedAt sort from
    (hsort sup).trans (and_congr_right fun _ => hreaches sort sup)
  by_cases hkey : sort ∈ table.keys
  · exact hclosed sort (.inl (horder.mem_iff.2 hkey))
  · refine hclosed sort (.inr fun other => ?_)
    rw [above_eq_nil hkey]
    refine iff_of_false List.not_mem_nil fun ⟨hne, hleads⟩ => ?_
    obtain heq | ⟨next, hnext, -⟩ := hleads.cases_head
    · exact hne heq.symm
    · rw [above_eq_nil hkey] at hnext
      exact List.not_mem_nil hnext

theorem above_add (table : SortTable) (sub sup sort : SortName) :
    (table.add sub sup).above sort =
      if sort = sub then table.above sort ++ [sup] else table.above sort := by
  unfold above
  induction table with
  | nil => by_cases hsort : sort = sub <;> simp [add, lookup_cons_eq_ite, hsort]
  | cons entry rest ih =>
      obtain ⟨key, sups⟩ := entry
      by_cases hkey : key = sub
      · subst hkey
        by_cases hsort : sort = key <;> simp_all [add, lookup_cons_eq_ite]
      · have hsub : sub ≠ key := Ne.symm hkey
        by_cases hsort : sort = key <;> simp_all [add, lookup_cons_eq_ite]

theorem mem_above_ofPairs_iff {pairs : List (SortName × SortName)} {sub sup : SortName} :
    sup ∈ (ofPairs pairs).above sub ↔ (sub, sup) ∈ pairs := by
  suffices hfold : ∀ table : SortTable,
      sup ∈ (pairs.foldl (fun table pair => table.add pair.1 pair.2) table).above sub ↔
        sup ∈ table.above sub ∨ (sub, sup) ∈ pairs by
    exact (hfold []).trans (or_iff_right List.not_mem_nil)
  induction pairs with
  | nil => simp
  | cons pair pairs ih =>
      intro table
      rw [List.foldl_cons, ih, above_add, List.mem_cons, ← or_assoc]
      refine or_congr_left ?_
      by_cases hsub : sub = pair.1
      · simp [hsub, Prod.ext_iff]
      · simp [hsub, Prod.ext_iff]

end SortTable

namespace Definition

variable {declarations : List Declaration}

/-- The definition with its table of sorts closed anew, the keys being visited in the given order. -/
def closedIn (definition : Definition) (declarations : List Declaration) (order : List SortName) :
    Definition :=
  { definition with
    supersorts := (SortTable.ofPairs (Declaration.subsorts declarations)).closeIn order }

/-- A sort is below another if the latter is the top sort, or declared pairs lead to it. -/
theorem isSubsort_closedIn_iff (definition : Definition) {order : List SortName}
    (horder : order.Perm (SortTable.ofPairs (Declaration.subsorts declarations)).keys)
    {sub sup : SortName} :
    (definition.closedIn declarations order).isSubsort sub sup = true ↔ sup = Symbol.top ∨
      ReflTransGen (fun sort next => (sort, next) ∈ Declaration.subsorts declarations) sub sup := by
  have hpairs : (SortTable.ofPairs (Declaration.subsorts declarations)).Reaches =
      ReflTransGen fun sort next => (sort, next) ∈ Declaration.subsorts declarations := by
    unfold SortTable.Reaches
    simp only [SortTable.mem_above_ofPairs_iff]
  have habove : ((definition.closedIn declarations order).supersorts.above sub).contains sup = true ↔
      sup ≠ sub ∧ (SortTable.ofPairs (Declaration.subsorts declarations)).Reaches sub sup := by
    rw [List.contains_iff_mem]
    exact SortTable.mem_above_closeIn_iff horder
  rw [isSubsort, Bool.or_eq_true, Bool.or_eq_true, beq_iff_eq, beq_iff_eq, habove, ← hpairs]
  constructor
  · rintro ((rfl | htop) | ⟨-, hreaches⟩)
    · exact .inr .refl
    · exact .inl htop
    · exact .inr hreaches
  · rintro (htop | hreaches)
    · exact .inl (.inr htop)
    · by_cases hsame : sup = sub
      · exact .inl (.inl hsame.symm)
      · exact .inr ⟨hsame, hreaches⟩

theorem isSubsort_assemble_iff {sub sup : SortName} :
    (assemble declarations).isSubsort sub sup = true ↔ sup = Symbol.top ∨
      ReflTransGen (fun sort next => (sort, next) ∈ Declaration.subsorts declarations) sub sup :=
  isSubsort_closedIn_iff (assemble declarations) (.refl _)

/-- Unless something is declared to lie above the top sort, the order of sorts is transitive. -/
theorem isSubsort_trans (htop : ∀ pair ∈ Declaration.subsorts declarations, pair.1 ≠ Symbol.top)
    {sub middle sup : SortName} (hsub : (assemble declarations).isSubsort sub middle = true)
    (hsup : (assemble declarations).isSubsort middle sup = true) :
    (assemble declarations).isSubsort sub sup = true := by
  rw [isSubsort_assemble_iff] at *
  rcases hsup with hsup | hsup
  · exact .inl hsup
  · rcases hsub with rfl | hsub
    · rcases hsup.cases_head with htop' | ⟨next, hnext, -⟩
      · exact .inl htop'.symm
      · exact absurd rfl (htop _ hnext)
    · exact .inr (hsub.trans hsup)

/-- In whatever order the table of sorts is closed, the answers are the same: a sort is below itself,
below the top sort, and below every sort that a chain of declared pairs leads to. Unless a pair is
declared with the top sort below, this is transitive. -/
theorem subsort_iff_declared_chain {definition : Definition}
    (hbuild : build declarations = .ok definition) {order : List SortName}
    (horder : order.Perm (SortTable.ofPairs (Declaration.subsorts declarations)).keys) :
    (∀ sub sup, (definition.closedIn declarations order).isSubsort sub sup = true ↔
      sub = sup ∨ sup = Symbol.top ∨
        TransGen (fun sort next => (sort, next) ∈ Declaration.subsorts declarations) sub sup) ∧
    (∀ sub sup, definition.isSubsort sub sup =
      (definition.closedIn declarations order).isSubsort sub sup) ∧
    ((∀ pair ∈ Declaration.subsorts declarations, pair.1 ≠ Symbol.top) →
      ∀ sub middle sup, (definition.closedIn declarations order).isSubsort sub middle = true →
        (definition.closedIn declarations order).isSubsort middle sup = true →
          (definition.closedIn declarations order).isSubsort sub sup = true) := by
  obtain rfl := eq_assemble_of_build hbuild
  have hsame : ∀ sub sup, (assemble declarations).isSubsort sub sup =
      ((assemble declarations).closedIn declarations order).isSubsort sub sup := by
    intro sub sup
    rw [Bool.eq_iff_iff, isSubsort_assemble_iff, isSubsort_closedIn_iff _ horder]
  refine ⟨fun sub sup => ?_, hsame, fun htop sub middle sup hsub hsup => ?_⟩
  · rw [isSubsort_closedIn_iff _ horder, reflTransGen_iff_eq_or_transGen, or_left_comm,
      eq_comm (a := sup)]
  · rw [← hsame] at *
    exact isSubsort_trans htop hsub hsup

end Definition

namespace Ranks

/-- Three ranks in a circle, one of them above itself, and a pair that is declared twice. -/
def declarations : List Declaration :=
  [.subsort "Low" "Mid", .subsort "Mid" "High", .subsort "High" "Low", .subsort "Mid" "Mid",
    .subsort "Low" "Mid", .subsort "Base" "Low"]

/-- From the base, visited last, each rank of the circle is reached through entries that are closed
already. -/
theorem subsort_iff_declared_chain_circle :
    Definition.build declarations = .ok (.assemble declarations) ∧
      ["High", "Mid", "Low", "Base"].Perm
        (SortTable.ofPairs (Declaration.subsorts declarations)).keys ∧
      ((Definition.assemble declarations).closedIn declarations
        ["High", "Mid", "Low", "Base"]).isSubsort "Base" "High" = true ∧
      ((Definition.assemble declarations).closedIn declarations
        ["High", "Mid", "Low", "Base"]).isSubsort "Low" "Base" = false := by
  have hbuild : Definition.build declarations = .ok (.assemble declarations) := by rfl
  have horder : ["High", "Mid", "Low", "Base"].Perm
      (SortTable.ofPairs (Declaration.subsorts declarations)).keys := by decide +kernel
  obtain ⟨hchain, -, -⟩ := Definition.subsort_iff_declared_chain hbuild horder
  have hlow : ("Base", "Low") ∈ Declaration.subsorts declarations := by decide +kernel
  have hmid : ("Low", "Mid") ∈ Declaration.subsorts declarations := by decide +kernel
  have hhigh : ("Mid", "High") ∈ Declaration.subsorts declarations := by decide +kernel
  have hbase : ∀ pair ∈ Declaration.subsorts declarations, pair.2 ≠ "Base" := by decide +kernel
  refine ⟨hbuild, horder, (hchain _ _).2 (.inr (.inr ?_)), ?_⟩
  · exact ((TransGen.single hlow).tail hmid).tail hhigh
  · rw [← Bool.not_eq_true, hchain]
    rintro (hsame | htop | hleads)
    · exact absurd hsame (by decide)
    · exact absurd htop (by decide)
    · obtain ⟨last, -, hlast⟩ := TransGen.tail'_iff.1 hleads
      exact hbase _ hlast rfl

end Ranks

end SymbolicRewriting
