import SymbolicRewriting.Proofs.Backtracking
import SymbolicRewriting.Proofs.FlatSequences
import SymbolicRewriting.Proofs.MatchedIdentities

/-!
# Matches are distinct

The alternatives of a choice bind a rest variable to segments of different length, or they pair a cell of
the pattern with different cells of the subject. What has been bound and recorded stays, so whatever
comes of one alternative differs from what comes of another at this very place. For cells it takes that
no two cells of the subject have the same identity, and for segments that sequences are flat: else two
segments might become the same sequence.
-/

namespace SymbolicRewriting

open List

/-! ### Substitutions that will always differ -/

namespace Substitution

/-- The other substitution has been made from this one by further bindings and writes. -/
structure Extends (subst extended : Substitution) : Prop where
  bindings : subst.bindings <+: extended.bindings
  writes : subst.writes <+: extended.writes

theorem Extends.refl (subst : Substitution) : subst.Extends subst :=
  ⟨prefix_rfl, prefix_rfl⟩

theorem Extends.trans {subst middle extended : Substitution} (hfirst : subst.Extends middle)
    (hsecond : middle.Extends extended) : subst.Extends extended :=
  ⟨hfirst.bindings.trans hsecond.bindings, hfirst.writes.trans hsecond.writes⟩

theorem extends_push (subst : Substitution) (v : Variable) (term : Term) :
    subst.Extends (subst.push v term) :=
  ⟨prefix_append _ _, prefix_rfl⟩

theorem extends_recordCell (subst : Substitution) (pattern target : CellId) :
    subst.Extends (subst.recordCell pattern target) := by
  unfold recordCell
  split
  · exact .refl subst
  · exact ⟨prefix_rfl, prefix_append _ _⟩

/-- Two bindings or two writes in the same place are not equal. -/
inductive Diverges (left right : Substitution) : Prop
  | binding (place : Nat) {binding binding' : Variable × Term}
      (hleft : left.bindings[place]? = some binding)
      (hright : right.bindings[place]? = some binding') (hdiffer : ¬binding.2.EqualTo binding'.2)
  | write (place : Nat) {write write' : CellWrite} (hleft : left.writes[place]? = some write)
      (hright : right.writes[place]? = some write') (hdiffer : write ≠ write')

variable {left right left' right' : Substitution}

theorem getElem?_of_starts {α : Type} {xs ys : List α} (hstarts : xs <+: ys) {place : Nat} {x : α}
    (hx : xs[place]? = some x) : ys[place]? = some x := by
  obtain ⟨hlt, rfl⟩ := List.getElem?_eq_some_iff.1 hx
  exact prefix_iff_getElem?.1 hstarts place hlt

theorem Diverges.extend (hdiverges : left.Diverges right) (hleft : left.Extends left')
    (hright : right.Extends right') : left'.Diverges right' := by
  cases hdiverges with
  | binding place hbinding hbinding' hdiffer =>
      exact .binding place (getElem?_of_starts hleft.bindings hbinding)
        (getElem?_of_starts hright.bindings hbinding') hdiffer
  | write place hwrite hwrite' hdiffer =>
      exact .write place (getElem?_of_starts hleft.writes hwrite)
        (getElem?_of_starts hright.writes hwrite') hdiffer

theorem equalTo_of_beq {bindings bindings' : List (Variable × Term)}
    (hequal : (bindings == bindings') = true) {place : Nat} {binding binding' : Variable × Term}
    (hleft : bindings[place]? = some binding) (hright : bindings'[place]? = some binding') :
    binding.2.EqualTo binding'.2 := by
  induction bindings generalizing bindings' place with
  | nil => cases hleft
  | cons first bindings ih =>
      cases bindings' with
      | nil => cases hright
      | cons first' bindings' =>
          rw [cons_beq_cons, Bool.and_eq_true] at hequal
          cases place with
          | zero =>
              cases hleft
              cases hright
              have hsame : (binding.1 == binding'.1 && binding.2 == binding'.2) = true := hequal.1
              exact (Bool.and_eq_true_iff.1 hsame).2
          | succ place => exact ih hequal.2 hleft hright

theorem Diverges.not_beq (hdiverges : left.Diverges right) : ¬(left == right) = true := by
  intro hequal
  change (left.bindings.length == right.bindings.length && left.bindings == right.bindings &&
    left.writes == right.writes) = true at hequal
  rw [Bool.and_eq_true, Bool.and_eq_true] at hequal
  obtain ⟨⟨-, hbindings⟩, hwrites⟩ := hequal
  cases hdiverges with
  | binding place hleft hright hdiffer => exact hdiffer (equalTo_of_beq hbindings hleft hright)
  | write place hleft hright hdiffer =>
      rw [eq_of_beq hwrites, hright] at hleft
      exact hdiffer (Option.some.inj hleft).symm

/-- A variable is bound to different terms from here on. -/
theorem diverges_push (subst : Substitution) (v : Variable) {term other : Term}
    (hdiffer : ¬term.EqualTo other) : (subst.push v term).Diverges (subst.push v other) :=
  .binding subst.bindings.length getElem?_concat_length getElem?_concat_length hdiffer

theorem recordCell_of_not_mem {subst : Substitution} {target : CellId}
    (hfresh : target ∉ subst.targets) (pattern : CellId) :
    subst.recordCell pattern target =
      { subst with writes := subst.writes ++ [⟨pattern, target⟩] } := by
  refine if_neg fun hcontains => hfresh ?_
  exact mem_map_of_mem (contains_iff_mem.1 hcontains)

/-- A cell is paired with different cells from here on, none of which is overwritten already. -/
theorem diverges_recordCell {subst : Substitution} {target other : CellId}
    (htarget : target ∉ subst.targets) (hother : other ∉ subst.targets) (hne : target ≠ other)
    (pattern : CellId) :
    (subst.recordCell pattern target).Diverges (subst.recordCell pattern other) := by
  rw [recordCell_of_not_mem htarget, recordCell_of_not_mem hother]
  refine .write subst.writes.length getElem?_concat_length getElem?_concat_length ?_
  rintro ⟨⟩
  exact hne rfl

end Substitution

/-! ### What a branch keeps -/

/-- No item that is left is a sequence over the operator that the items stand in. -/
def Obligation.Unspliced : Obligation → Prop
  | items op _ parts => ∀ part ∈ parts, part.isSequenceOver op = false
  | _ => True

/-- What is left of the subject is flat, and neither in it nor among what has been taken from it does an
identity occur twice. -/
structure Branch.Sound (branch : Branch) : Prop where
  subst : branch.subst.Everywhere Term.FlatRoot
  flat : ∀ obligation ∈ branch.pending, obligation.SubjectEverywhere Term.FlatRoot
  unspliced : ∀ obligation ∈ branch.pending, obligation.Unspliced
  distinct : (branch.subst.identities + (branch.pending.map Obligation.identities).sum).Nodup

namespace Obligation

theorem Opens.unspliced {obligation : Obligation} {opened : List Obligation}
    (hopens : obligation.Opens opened) (hflat : obligation.SubjectEverywhere Term.FlatRoot)
    (hunspliced : obligation.Unspliced) : ∀ next ∈ opened, next.Unspliced := by
  cases hopens with
  | token _ _ | exhausted _ | closed _ => exact forall_mem_nil _
  | app _ _ => exact forall_mem_zipWith_term fun _ _ _ _ => True.intro
  | sequence op _ _ =>
      exact forall_mem_singleton.2 fun part hmem =>
        Term.isSequenceOver_of_mem_itemsOf (hflat.everywhere rfl).self hmem
  | collection _ _ _ _ => exact forall_mem_singleton.2 True.intro
  | item _ _ _ _ _ =>
      exact forall_mem_cons.2 ⟨True.intro, forall_mem_singleton.2 (forall_mem_cons.1 hunspliced).2⟩

end Obligation

namespace Findings

variable {definition : Definition} {findings next : Findings} {pending later : List Obligation}

theorem Step.unspliced (hstep : Step definition findings pending next later)
    (hflat : ∀ obligation ∈ pending, obligation.SubjectEverywhere Term.FlatRoot)
    (hpending : ∀ obligation ∈ pending, obligation.Unspliced) :
    ∀ obligation ∈ later, obligation.Unspliced := by
  cases hstep with
  | meet _ _ => exact (forall_mem_cons.1 hpending).2
  | enter hopens =>
      obtain ⟨hfirst, hothers⟩ := forall_mem_cons.1 hpending
      have hopened := hopens.unspliced (forall_mem_cons.1 hflat).1 hfirst
      exact forall_mem_append.2 ⟨hopened, hothers⟩
  | boundSegment _ _ _ _ | freeSegment _ _ _ =>
      obtain ⟨hitems, hothers⟩ := forall_mem_cons.1 hpending
      exact forall_mem_cons.2 ⟨fun item hmem => hitems item (mem_of_mem_drop hmem), hothers⟩
  | cell _ =>
      obtain ⟨-, hothers⟩ := forall_mem_cons.1 hpending
      exact forall_mem_cons.2 ⟨True.intro, forall_mem_cons.2 ⟨True.intro, hothers⟩⟩
  | settle _ _ => exact hpending

theorem Step.extends (hstep : Step definition findings pending next later) :
    findings.subst.Extends next.subst := by
  cases hstep with
  | meet _ hmet =>
      cases hmet with
      | bound _ _ => exact Substitution.extends_push _ _ _
      | repeated _ _ _ | equated _ _ _ | constrained _ | deferred => exact .refl _
  | enter _ | boundSegment _ _ _ _ | settle _ _ => exact .refl _
  | freeSegment _ _ _ => exact Substitution.extends_push _ _ _
  | cell _ => exact Substitution.extends_recordCell _ _ _

end Findings

namespace Branch

variable {definition : Definition}

theorem Sound.leads {branch next : Branch} (hsound : branch.Sound)
    (hleads : branch.Leads definition next) : next.Sound := by
  have hstep := step_of_leads hleads
  obtain ⟨hsubst, hflat⟩ := hstep.everywhere Term.composable_flatRoot hsound.subst hsound.flat
  exact ⟨hsubst, hflat, hstep.unspliced hsound.flat hsound.unspliced,
    Multiset.nodup_of_le hstep.identities_le hsound.distinct⟩

theorem sound_start (pattern : Term) {subject : Term} (hflattened : subject.Flattened)
    (hids : subject.cellIds.Nodup) : (Branch.start pattern subject).Sound where
  subst := Substitution.everywhere_empty
  flat := forall_mem_singleton.2
    (Obligation.subjectEverywhere_term _ (Term.flattened_iff_everywhere.1 hflattened))
  unspliced := forall_mem_singleton.2 True.intro
  distinct := by
    have hall : (Branch.start pattern subject).subst.identities +
        ((Branch.start pattern subject).pending.map Obligation.identities).sum =
          subject.identities := (zero_add _).trans sum_singleton
    rw [hall]
    exact hids

/-! ### Alternatives differ -/

/-- The substitutions of any two alternatives will always differ. -/
def Apart (progress : Progress) : Prop :=
  ∀ next, progress = .branches next →
    next.Pairwise fun branch other => branch.subst.Diverges other.subst

theorem apart_goOn (branch : Branch) : Apart branch.goOn := by
  rintro _ ⟨⟩
  exact pairwise_singleton _ _

theorem apart_bind (branch : Branch) (v : Variable) (subject : Term) :
    Apart (branch.bind definition v subject) := by
  unfold bind
  split
  · rintro _ ⟨⟩
  · rintro _ ⟨⟩
  · split
    · exact apart_goOn _
    · split
      · rintro _ ⟨⟩
      · exact apart_goOn _

theorem apart_meetUnknown (branch : Branch) (pattern : Term) (v : Variable) :
    Apart (branch.meetUnknown definition pattern v) := by
  unfold meetUnknown
  split
  · rintro _ ⟨⟩
  · split
    · rintro _ ⟨⟩
    · split <;> exact apart_goOn _

theorem apart_advanceTerm (branch : Branch) (pattern subject : Term) :
    Apart (branch.advanceTerm definition pattern subject) := by
  unfold advanceTerm
  split
  · exact apart_bind _ _ _
  · exact apart_meetUnknown _ _ _
  · split
    · exact apart_goOn _
    · rintro _ ⟨⟩
  · split
    · exact apart_goOn _
    · rintro _ ⟨⟩
  · exact apart_goOn _
  · exact apart_goOn _
  · rintro _ ⟨⟩

theorem apart_takeItem (branch : Branch) (op : Label) (pattern : Term)
    (patterns items : List Term) : Apart (branch.takeItem op pattern patterns items) := by
  unfold takeItem
  split
  · rintro _ ⟨⟩
  · split
    · rintro _ ⟨⟩
    · exact apart_goOn _

/-- Segments of different length are different sequences. -/
theorem not_equalTo_flatten_take {op : Label} {items : List Term}
    (hitems : ∀ item ∈ items, item.isSequenceOver op = false) {count more : Nat}
    (hlt : count < more) (hle : more ≤ items.length) :
    ¬(Term.flatten op (items.take count)).EqualTo (.flatten op (items.take more)) := by
  have hitemsOf : ∀ count, (Term.flatten op (items.take count)).itemsOf op = items.take count := by
    intro count
    rw [Term.itemsOf_flatten, Term.flatMap_itemsOf_eq_self]
    rw [any_eq_false]
    intro item hmem
    simp [hitems item (mem_of_mem_take hmem)]
  intro hequal
  have hlength := (Term.forall₂_itemsOf op hequal).length_eq
  rw [hitemsOf, hitemsOf, length_take, length_take] at hlength
  omega

theorem apart_takeSegments (branch : Branch) (op : Label) (v : Variable) (patterns : List Term)
    {items : List Term} (hitems : ∀ item ∈ items, item.isSequenceOver op = false) :
    Apart (branch.takeSegments op v patterns items) := by
  unfold takeSegments
  dsimp only
  split
  · rintro _ ⟨⟩
    rw [pairwise_map]
    refine Pairwise.imp_of_mem (fun {count more} _ hmore hlt => ?_) pairwise_lt_range'
    have hle : more ≤ items.length := by
      have hbound := (mem_range'_1.1 hmore).2
      split at hbound <;> omega
    exact Substitution.diverges_push branch.subst v (not_equalTo_flatten_take hitems hlt hle)
  · rintro _ ⟨⟩

theorem apart_advanceItems (branch : Branch) (op : Label) (patterns : List Term)
    {items : List Term} (hitems : ∀ item ∈ items, item.isSequenceOver op = false) :
    Apart (branch.advanceItems op patterns items) := by
  unfold advanceItems
  split
  · split
    · exact apart_goOn _
    · rintro _ ⟨⟩
  · split
    · split
      · split
        · unfold takeBoundSegment
          dsimp only
          split
          · exact apart_goOn _
          · rintro _ ⟨⟩
        · exact apart_takeSegments _ _ _ _ hitems
      · exact apart_takeItem _ _ _ _ _
    · exact apart_takeItem _ _ _ _ _

theorem coe_ids_le (cells : List (Cell Term)) :
    ((cells.map Cell.id : List CellId) : Multiset CellId) ≤ (cells.map Cell.identities).sum := by
  induction cells with
  | nil => exact le_refl _
  | cons cell cells ih =>
      rw [map_cons, map_cons, sum_cons, ← Multiset.cons_coe, ← Multiset.singleton_add]
      exact add_le_add (Multiset.le_add_right _ _) ih

/-- The cells of a choice have different identities, and none of them is overwritten already. -/
theorem pairwise_selections {subst : Substitution} (name : Label) {cells : List (Cell Term)}
    (hdistinct : (subst.identities + (cells.map Cell.identities).sum).Nodup) :
    (selections name [] cells).Pairwise fun choice other =>
      choice.1.id ∉ subst.targets ∧ other.1.id ∉ subst.targets ∧ choice.1.id ≠ other.1.id := by
  obtain ⟨-, hcells, hdisjoint⟩ := Multiset.nodup_add.1 hdistinct
  have hchosen : (selections name [] cells).map Prod.fst =
      cells.filter fun cell => cell.name = name := by
    have hfirst := congrArg (map Prod.fst) (selections_eq_choices name [] cells)
    rw [map_map, map_map] at hfirst
    exact hfirst.trans (Term.map_fst_choices name cells)
  have hids : (cells.map Cell.id).Nodup := Multiset.nodup_of_le (coe_ids_le cells) hcells
  have hnodup : ((selections name [] cells).map fun choice => choice.1.id).Nodup := by
    have hsublist : ((selections name [] cells).map Prod.fst).Sublist cells :=
      hchosen ▸ filter_sublist
    have hall := (hsublist.map Cell.id).nodup hids
    rwa [map_map] at hall
  have hfresh : ∀ choice ∈ selections name [] cells, choice.1.id ∉ subst.targets := by
    intro choice hmem htarget
    have hcell : choice.1 ∈ cells :=
      mem_of_mem_filter (hchosen ▸ mem_map_of_mem (f := Prod.fst) hmem)
    refine Multiset.disjoint_left.1 hdisjoint ?_
      (Multiset.mem_of_le (coe_ids_le cells) (mem_map_of_mem (f := Cell.id) hcell))
    exact Multiset.mem_add.2 (.inr htarget)
  refine Pairwise.imp_of_mem (fun {choice other} hchoice hother hne => ?_) (pairwise_map.1 hnodup)
  exact ⟨hfresh choice hchoice, hfresh other hother, hne⟩

theorem apart_advanceCells (branch : Branch) (patterns : List (Cell Term)) (frame : Option Variable)
    {free : FreeCells} (subjectFrame : Option Variable)
    (hdistinct : (branch.subst.identities + (free.toList.map Cell.identities).sum).Nodup) :
    Apart (branch.advanceCells definition patterns frame free subjectFrame) := by
  unfold advanceCells
  split
  · split
    · exact apart_bind _ _ _
    · split
      · rintro _ ⟨⟩
      · split
        · rintro _ ⟨⟩
        · exact apart_goOn _
  · split
    · split <;> rintro _ ⟨⟩
    · rename_i pattern _ _ _
      rintro _ ⟨⟩
      rw [pairwise_map]
      exact (pairwise_selections pattern.name hdistinct).imp fun hchoice =>
        Substitution.diverges_recordCell hchoice.1 hchoice.2.1 hchoice.2.2 pattern.id

theorem Sound.apart {branch : Branch} (hsound : branch.Sound) : Apart (branch.advance definition) := by
  unfold advance
  split
  · unfold finish
    split
    · rintro _ ⟨⟩
    · split
      · exact apart_goOn _
      · rintro _ ⟨⟩
  · rename_i obligation pending hpending
    have hunspliced := hsound.unspliced obligation (hpending ▸ mem_cons_self)
    dsimp only
    split
    · exact apart_advanceTerm _ _ _
    · exact apart_advanceItems _ _ _ hunspliced
    · refine apart_advanceCells _ _ _ _ (Multiset.nodup_of_le ?_ hsound.distinct)
      rw [hpending, map_cons, sum_cons]
      exact add_le_add (le_refl _) (Multiset.le_add_right _ _)

end Branch

/-! ### Matches differ -/

section Exploring

variable {definition : Definition} {branches : List Branch} {results : PatternMatches}

/-- The matches that have been found and the branches that are left to explore will always differ from
each other, and so do the matches in the end. -/
theorem pairwise_found_explore (hsound : ∀ branch ∈ branches, branch.Sound)
    (hdiffer : (results.found.toList.map StructuralMatch.subst ++
      branches.map Branch.subst).Pairwise Substitution.Diverges) :
    ((explore definition branches results).found.toList.map StructuralMatch.subst).Pairwise
      Substitution.Diverges := by
  fun_induction explore definition branches results with
  | case1 results => simpa using hdiffer
  | case2 results branch later hadvance ih =>
      refine ih (forall_mem_cons.1 hsound).2 ?_
      simpa [PatternMatches.accept] using hdiffer
  | case3 results branch later hadvance ih | case4 results branch later hadvance ih
  | case5 results branch later hadvance ih =>
      refine ih (forall_mem_cons.1 hsound).2 (hdiffer.sublist ?_)
      exact (sublist_cons_self _ _).append_left _
  | case6 results branch later next hadvance ih =>
      obtain ⟨hbranch, hlater⟩ := forall_mem_cons.1 hsound
      have hextends : ∀ other ∈ next, branch.subst.Extends other.subst :=
        fun other hmem => (Branch.step_of_leads ⟨next, hadvance, hmem⟩).extends
      have hnext : ∀ other ∈ next, other.Sound :=
        fun other hmem => hbranch.leads ⟨next, hadvance, hmem⟩
      refine ih (forall_mem_append.2 ⟨hnext, hlater⟩) ?_
      rw [map_cons, pairwise_append, pairwise_cons] at hdiffer
      obtain ⟨hfound, ⟨hfirst, hothers⟩, hcross⟩ := hdiffer
      rw [map_append, pairwise_append, pairwise_append]
      refine ⟨hfound, ⟨pairwise_map.2 (hbranch.apart next hadvance), hothers, ?_⟩, ?_⟩
      · rw [forall_mem_map]
        intro other hmem subst hsubst
        exact (hfirst subst hsubst).extend (hextends other hmem) (.refl subst)
      · intro subst hsubst
        refine forall_mem_append.2 ⟨forall_mem_map.2 fun other hmem => ?_, fun other hmem =>
          hcross subst hsubst other (mem_cons_of_mem _ hmem)⟩
        exact (hcross subst hsubst branch.subst mem_cons_self).extend (.refl subst)
          (hextends other hmem)

end Exploring

/-- The matcher finds what plain backtracking finds, in the same order, and gives up as much. If sequences
are flat and no identity occurs twice in the subject, no two matches have the same substitution, whatever
constraints they come with. -/
theorem Definition.matchPattern_backtracks (definition : Definition) (pattern subject : Term) :
    definition.matchPattern pattern subject =
        .gather (definition.backtrackPattern pattern subject) ∧
      (subject.Flattened → subject.cellIds.Nodup →
        (definition.matchPattern pattern subject).found.toList.Pairwise fun found other =>
          ¬(found.subst == other.subst) = true) := by
  refine ⟨definition.matchPattern_eq_gather pattern subject, fun hflattened hids => ?_⟩
  have hsound : ∀ branch ∈ [Branch.start pattern subject], branch.Sound :=
    forall_mem_singleton.2 (Branch.sound_start pattern hflattened hids)
  have hall : ((definition.matchPattern pattern subject).found.toList.map
      StructuralMatch.subst).Pairwise Substitution.Diverges :=
    pairwise_found_explore hsound (pairwise_singleton _ _)
  exact (pairwise_map.1 hall).imp Substitution.Diverges.not_beq

namespace Dealing

def player : Variable := ⟨"P", Symbol.int, .plain⟩

def dealer : Variable := ⟨"D", Symbol.int, .plain⟩

def dealt : Variable := ⟨"DEALT", Symbol.top, .rest⟩

def stock : Variable := ⟨"STOCK", Symbol.top, .rest⟩

def pattern : Term :=
  .app "deal" [.sequence Symbol.sequencing [.var dealt, .var stock],
    .collection [⟨1, "hand", .var player⟩, ⟨2, "hand", .var dealer⟩] none]

/-- Both hands hold the same. -/
def subject : Term :=
  .app "deal" [.sequence Symbol.sequencing [.int 3],
    .collection [⟨7, "hand", .int 5⟩, ⟨8, "hand", .int 5⟩] none]

/-- The card is dealt or not, and either hand may be the player's: in each case the bindings agree, and
the cells tell the matches apart. -/
theorem matchPattern_backtracks_hands :
    subject.Flattened ∧ subject.cellIds.Nodup ∧
    ((Definition.assemble []).matchPattern pattern subject).found.toList.map
      (fun found => found.subst.writes) =
        [[⟨1, 7⟩, ⟨2, 8⟩], [⟨1, 8⟩, ⟨2, 7⟩], [⟨1, 7⟩, ⟨2, 8⟩], [⟨1, 8⟩, ⟨2, 7⟩]] ∧
    ((Definition.assemble []).matchPattern pattern subject).found.toList.Pairwise fun found other =>
      ¬(found.subst == other.subst) = true := by
  have hflattened : subject.Flattened := by decide +kernel
  have hids : subject.cellIds.Nodup := by decide +kernel
  obtain ⟨-, hdistinct⟩ := (Definition.assemble []).matchPattern_backtracks pattern subject
  exact ⟨hflattened, hids, by decide +kernel, hdistinct hflattened hids⟩

end Dealing

end SymbolicRewriting
