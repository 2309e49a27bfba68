import SymbolicRewriting.Symbol
import Std.Data.HashSet

/-!
The table of sorts: for each sort the sorts above it. Declared pairs give the direct ones, and
closing the table follows them to all others. Each sort's entry is replaced in turn, so later ones
may already use closed entries.
-/

namespace SymbolicRewriting

abbrev SortTable := List (SortName × List SortName)

namespace SortTable

def keys (table : SortTable) : List SortName := table.map Prod.fst

def above (table : SortTable) (sort : SortName) : List SortName :=
  (table.lookup sort).getD []

/-- Adds a direct supersort at the end of the entry of `sub`, which is made if there is none. -/
def add (sub sup : SortName) : SortTable → SortTable
  | [] => [(sub, [sup])]
  | (sort, sups) :: rest =>
      if sort = sub then (sort, sups ++ [sup]) :: rest else (sort, sups) :: add sub sup rest

def ofPairs (pairs : List (SortName × SortName)) : SortTable :=
  pairs.foldl (fun table pair => table.add pair.1 pair.2) []

def replace (sort : SortName) (sups : List SortName) (table : SortTable) : SortTable :=
  table.map fun entry => if entry.1 = sort then (sort, sups) else entry

theorem above_eq_nil {table : SortTable} {sort : SortName} (habsent : sort ∉ table.keys) :
    table.above sort = [] := by
  have hlookup : table.lookup sort = none := by
    simp only [keys, List.mem_map, not_exists, not_and] at habsent
    simp only [List.lookup_eq_none_iff, bne_iff_ne, ne_eq]
    exact fun entry hmem heq => habsent entry hmem (Eq.symm heq)
  simp [above, hlookup]

def unreached (table : SortTable) (reached : Std.HashSet SortName) : List SortName :=
  table.keys.filter fun sort => !reached.contains sort

theorem unreached_insert (table : SortTable) (reached : Std.HashSet SortName) (sort : SortName) :
    table.unreached (reached.insert sort) =
      (table.unreached reached).filter fun key => !(sort == key) := by
  simp [unreached, List.filter_filter, Std.HashSet.contains_insert]

theorem unreached_insert_le (table : SortTable) (reached : Std.HashSet SortName)
    (sort : SortName) :
    (table.unreached (reached.insert sort)).length ≤ (table.unreached reached).length := by
  rw [unreached_insert]
  exact List.length_filter_le _ _

theorem unreached_insert_lt {table : SortTable} {reached : Std.HashSet SortName}
    {sort : SortName} (hkey : sort ∈ table.keys) (hnew : sort ∉ reached) :
    (table.unreached (reached.insert sort)).length < (table.unreached reached).length := by
  rw [unreached_insert]
  refine List.length_filter_lt_length_iff_exists.2 ⟨sort, ?_, by simp⟩
  simpa [unreached, hkey] using hnew

/-- The sorts reached from a stack of sorts, without `origin`, by depth-first search. -/
def reach (table : SortTable) (origin : SortName) (reached : Std.HashSet SortName)
    (stack : List SortName) : Std.HashSet SortName :=
  match stack with
  | [] => reached
  | sort :: rest =>
      if _hskip : sort = origin ∨ sort ∈ reached then table.reach origin reached rest
      else table.reach origin (reached.insert sort) (table.above sort ++ rest)
termination_by ((table.unreached reached).length, stack.length)
decreasing_by
  · exact Prod.Lex.right _ (Nat.lt_succ_self _)
  · by_cases hkey : sort ∈ table.keys
    · exact Prod.Lex.left _ _ (unreached_insert_lt hkey (not_or.1 _hskip).2)
    · rcases Nat.lt_or_eq_of_le (unreached_insert_le table reached sort) with hlt | heq
      · exact Prod.Lex.left _ _ hlt
      · rw [heq, above_eq_nil hkey]
        exact Prod.Lex.right _ (Nat.lt_succ_self _)

/-- Replaces the entry of one sort by every sort that is reached from it. -/
def closeEntry (table : SortTable) (sort : SortName) : SortTable :=
  table.replace sort (table.reach sort ∅ (table.above sort)).toList

def closeIn (table : SortTable) (order : List SortName) : SortTable :=
  order.foldl closeEntry table

def close (table : SortTable) : SortTable := table.closeIn table.keys

end SortTable

end SymbolicRewriting
