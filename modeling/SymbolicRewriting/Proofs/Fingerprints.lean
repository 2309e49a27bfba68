import SymbolicRewriting.Term.Fingerprint
import SymbolicRewriting.Proofs.Conformance

/-!
Equal terms have the same fingerprint, whatever the hasher, so that a hashed set of terms holds one
term of each class.
-/

namespace SymbolicRewriting

open List

namespace Term

section Feed

open Hasher

variable {η : Type} [Hasher η]

/-- The cells of a collection are fed as a sum, so their order is not fed. -/
theorem cellSum_eq_of_perm (initial : η) {cells others : List (Cell Term)}
    (hperm : cells.Perm others) : cellSum initial cells = cellSum initial others := by
  induction hperm with
  | nil => rfl
  | cons cell _ ih => rw [cellSum, cellSum, ih]
  | swap first second cells =>
      simp only [cellSum]
      rw [← UInt64.add_assoc, ← UInt64.add_assoc]
      congr 1
      exact UInt64.add_comm _ _
  | trans _ _ ih ih' => exact ih.trans ih'

theorem feedAll_eq {terms others : List Term} (hequal : Forall₂ EqualTo terms others)
    (hfeed : ∀ term ∈ terms, ∀ {other}, term.EqualTo other → ∀ state : η,
      term.feed state = other.feed state) (state : η) :
    feedAll terms state = feedAll others state := by
  induction hequal generalizing state with
  | nil => rfl
  | cons hterm _ ih =>
      obtain ⟨hfirst, hothers⟩ := forall_mem_cons.1 hfeed
      rw [feedAll, feedAll, hfirst hterm]
      exact ih hothers _

theorem cellSum_eq {cells others : List (Cell Term)} (hequal : Forall₂ CellsEqual cells others)
    (hfeed : ∀ cell ∈ cells, ∀ {other}, cell.content.EqualTo other → ∀ state : η,
      cell.content.feed state = other.feed state) (initial : η) :
    cellSum initial cells = cellSum initial others := by
  induction hequal with
  | nil => rfl
  | cons hcell _ ih =>
      obtain ⟨hfirst, hothers⟩ := forall_mem_cons.1 hfeed
      obtain ⟨hname, hcontent⟩ := cellsEqual_iff.1 hcell
      rw [cellSum, cellSum, ih hothers, hname, hfirst hcontent]

/-- A hasher is fed the same by equal terms. -/
theorem EqualTo.feed_eq {left right : Term} (hequal : left.EqualTo right) (state : η) :
    left.feed state = right.feed state := by
  induction left using nestedInduction generalizing right state with
  | token sort value =>
      cases hequal.sameForm
      rfl
  | var v =>
      cases hequal.sameForm
      rfl
  | app label args ih =>
      cases hequal.sameForm with
      | app _ hargs =>
          rw [feed, feed, hargs.length_eq]
          exact feedAll_eq hargs ih _
  | sequence op items ih =>
      cases hequal.sameForm with
      | sequence _ hitems =>
          rw [feed, feed, hitems.length_eq]
          exact feedAll_eq hitems ih _
  | collection cells frame ih =>
      cases hequal.sameForm with
      | collection _ hperm hpaired =>
          rw [feed, feed, cellSum_eq hpaired ih, cellSum_eq_of_perm _ hperm, hperm.length_eq,
            hpaired.length_eq]

variable (η) in
theorem EqualTo.fingerprintWith_eq {left right : Term} (hequal : left.EqualTo right) :
    left.fingerprintWith η = right.fingerprintWith η :=
  congrArg finish (hequal.feed_eq start)

end Feed

instance : EquivBEq Term where
  rfl := beq_refl _
  symm := beq_symm
  trans := beq_trans

instance : LawfulHashable Term where
  hash_eq _ _ hequal := EqualTo.fingerprintWith_eq UInt64 hequal

end Term

end SymbolicRewriting
