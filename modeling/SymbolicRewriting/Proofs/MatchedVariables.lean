import SymbolicRewriting.Definition.Rule
import SymbolicRewriting.Proofs.BoundVariables
import SymbolicRewriting.Proofs.CellIdentities
import SymbolicRewriting.Proofs.Renamings

/-!
# What a match links

A match binds the variables of its pattern and no others, each of them once, to terms in which nothing
occurs that does not occur in the subject, and it pairs cells of the pattern with cells of the subject.
What is left to match has been taken from the pattern and from the subject, so each step links the two.
-/

namespace SymbolicRewriting

open List

variable {definition : Definition} {pattern subject : Term}

namespace Term

theorem mem_cellIds_cases {term : Term} {id : CellId} : id ∈ term.cellIds ↔
    (∃ cell ∈ term.cellsAtRoot, cell.id = id) ∨ ∃ child ∈ term.children, id ∈ child.cellIds := by
  rw [cellIds_eq, mem_append, List.mem_map, mem_flatMap]

/-- What occurs in the term occurs in the whole. -/
structure Inside (whole term : Term) : Prop where
  vars : term.vars ⊆ whole.vars
  cellIds : term.cellIds ⊆ whole.cellIds

theorem Inside.refl (whole : Term) : whole.Inside whole :=
  ⟨Subset.refl _, Subset.refl _⟩

variable {whole : Term}

theorem inside_iff {term : Term} : whole.Inside term ↔
    (∀ v, term.rootVariable = some v → v ∈ whole.vars) ∧
      (∀ cell ∈ term.cellsAtRoot, cell.id ∈ whole.cellIds) ∧
        ∀ child ∈ term.children, whole.Inside child := by
  constructor
  · rintro ⟨hvars, hids⟩
    refine ⟨fun v hroot => hvars (mem_vars_cases.2 (.inl hroot)), fun cell hcell => ?_,
      fun child hchild => ⟨?_, fun id hid => ?_⟩⟩
    · exact hids (mem_cellIds_cases.2 (.inl ⟨cell, hcell, rfl⟩))
    · exact List.Subset.trans (vars_subset_of_mem_children hchild) hvars
    · exact hids (mem_cellIds_cases.2 (.inr ⟨child, hchild, hid⟩))
  · rintro ⟨hroot, hcells, hchildren⟩
    constructor
    · intro v hv
      rcases mem_vars_cases.1 hv with hself | ⟨child, hchild, hv⟩
      · exact hroot v hself
      · exact (hchildren child hchild).vars hv
    · intro id hid
      rcases mem_cellIds_cases.1 hid with ⟨cell, hcell, rfl⟩ | ⟨child, hchild, hid⟩
      · exact hcells cell hcell
      · exact (hchildren child hchild).cellIds hid

theorem Inside.children {term : Term} (hterm : whole.Inside term) :
    ∀ child ∈ term.children, whole.Inside child :=
  (inside_iff.1 hterm).2.2

theorem inside_sequence_iff {op : Label} {items : List Term} :
    whole.Inside (sequence op items) ↔ ∀ item ∈ items, whole.Inside item :=
  inside_iff.trans ⟨fun hterm => hterm.2.2, fun hitems => ⟨nofun, forall_mem_nil _, hitems⟩⟩

theorem inside_collection_iff {cells : List (Cell Term)} {frame : Option Variable} :
    whole.Inside (collection cells frame) ↔ (∀ v, frame = some v → v ∈ whole.vars) ∧
      ∀ cell ∈ cells, cell.id ∈ whole.cellIds ∧ whole.Inside cell.content := by
  rw [inside_iff, children, forall_mem_map]
  constructor
  · rintro ⟨hframe, hids, hcells⟩
    exact ⟨hframe, fun cell hmem => ⟨hids cell hmem, hcells cell hmem⟩⟩
  · rintro ⟨hframe, hcells⟩
    exact ⟨hframe, fun cell hmem => (hcells cell hmem).1, fun cell hmem => (hcells cell hmem).2⟩

theorem Inside.itemsOf {term : Term} (hterm : whole.Inside term) (op : Label) :
    ∀ item ∈ term.itemsOf op, whole.Inside item := by
  intro item hmem
  rcases eq_or_mem_children_of_mem_itemsOf hmem with rfl | hchild
  · exact hterm
  · exact hterm.children item hchild

theorem Inside.flatten {op : Label} {items : List Term} (hitems : ∀ item ∈ items, whole.Inside item) :
    whole.Inside (flatten op items) := by
  rw [flatten_eq, inside_sequence_iff]
  intro part hpart
  obtain ⟨item, hmem, hpart⟩ := mem_flatMap.1 hpart
  exact (hitems item hmem).itemsOf op part hpart

end Term

/-- What is left to match has been taken from the pattern and from the subject. -/
def Obligation.Inside (pattern subject : Term) : Obligation → Prop
  | term part taken => pattern.Inside part ∧ subject.Inside taken
  | items op parts taken =>
      pattern.Inside (.sequence op parts) ∧ subject.Inside (.sequence op taken)
  | cells parts frame free subjectFrame =>
      pattern.Inside (.collection parts frame) ∧
        subject.Inside (.collection free.toList subjectFrame)

theorem Obligation.Opens.inside {obligation : Obligation} {opened : List Obligation}
    (hopens : obligation.Opens opened) (hinside : obligation.Inside pattern subject) :
    ∀ next ∈ opened, next.Inside pattern subject := by
  cases hopens with
  | token _ _ | exhausted _ | closed _ => exact forall_mem_nil _
  | app _ _ =>
      exact forall_mem_zipWith_term fun arg harg part hpart =>
        ⟨hinside.1.children arg harg, hinside.2.children part hpart⟩
  | sequence op _ _ =>
      exact forall_mem_singleton.2 ⟨hinside.1, Term.inside_sequence_iff.2 (hinside.2.itemsOf op)⟩
  | collection _ _ _ _ => exact forall_mem_singleton.2 hinside
  | item op _ _ _ _ =>
      obtain ⟨hparts, htaken⟩ := hinside
      rw [Term.inside_sequence_iff, forall_mem_cons] at hparts htaken
      exact forall_mem_cons.2 ⟨⟨hparts.1, htaken.1⟩, forall_mem_singleton.2
        ⟨Term.inside_sequence_iff.2 hparts.2, Term.inside_sequence_iff.2 htaken.2⟩⟩

namespace Substitution

theorem nodup_keys_push {subst : Substitution} (hdistinct : (subst.bindings.map Prod.fst).Nodup)
    {v : Variable} (hget : subst.get? v = none) (term : Term) :
    ((subst.push v term).bindings.map Prod.fst).Nodup := by
  rw [push, map_append]
  exact hdistinct.append (nodup_singleton v) (disjoint_singleton.2 (get?_eq_none_iff.1 hget))

theorem get?_of_mem_bindings {subst : Substitution}
    (hdistinct : (subst.bindings.map Prod.fst).Nodup) {binding : Variable × Term}
    (hmem : binding ∈ subst.bindings) : subst.get? binding.1 = some binding.2 := by
  cases hget : subst.get? binding.1 with
  | none => exact absurd (mem_map_of_mem hmem) (get?_eq_none_iff.1 hget)
  | some value =>
      rw [← inj_on_of_nodup_map hdistinct (mem_bindings_of_get? hget) hmem rfl]

/-- Different variables of the pattern are bound to what occurs in the subject, and cells of the one
are paired with cells of the other. -/
structure Links (pattern subject : Term) (subst : Substitution) : Prop where
  keys : ∀ binding ∈ subst.bindings, binding.1 ∈ pattern.vars
  distinct : (subst.bindings.map Prod.fst).Nodup
  values : ∀ binding ∈ subst.bindings, subject.Inside binding.2
  writes : ∀ write ∈ subst.writes, write.pattern ∈ pattern.cellIds ∧ write.target ∈ subject.cellIds

namespace Links

variable {subst : Substitution}

theorem empty (pattern subject : Term) : Substitution.empty.Links pattern subject :=
  ⟨forall_mem_nil _, nodup_nil, forall_mem_nil _, forall_mem_nil _⟩

theorem push (hlinks : subst.Links pattern subject) {v : Variable} (hget : subst.get? v = none)
    (hv : v ∈ pattern.vars) {term : Term} (hterm : subject.Inside term) :
    (subst.push v term).Links pattern subject where
  keys := forall_mem_append.2 ⟨hlinks.keys, forall_mem_singleton.2 hv⟩
  distinct := nodup_keys_push hlinks.distinct hget term
  values := forall_mem_append.2 ⟨hlinks.values, forall_mem_singleton.2 hterm⟩
  writes := hlinks.writes

theorem recordCell (hlinks : subst.Links pattern subject) {cell target : CellId}
    (hcell : cell ∈ pattern.cellIds) (htarget : target ∈ subject.cellIds) :
    (subst.recordCell cell target).Links pattern subject := by
  unfold Substitution.recordCell
  split
  · exact hlinks
  · exact { hlinks with
      writes := forall_mem_append.2 ⟨hlinks.writes, forall_mem_singleton.2 ⟨hcell, htarget⟩⟩ }

theorem isBound_iff (hlinks : subst.Links pattern subject) (hcovers : subst.Covers pattern)
    (v : Variable) : subst.isBound v = true ↔ v ∈ pattern.vars := by
  constructor
  · intro hbound
    have hsome : subst.get? v ≠ none := Option.isSome_iff_ne_none.1 hbound
    rw [Ne, get?_eq_none_iff, not_not] at hsome
    obtain ⟨binding, hmem, rfl⟩ := mem_map.1 hsome
    exact hlinks.keys binding hmem
  · exact hcovers v

theorem writeSetWithin (hlinks : subst.Links pattern subject) :
    subst.writeSetWithin subject = true :=
  all_eq_true.2 (forall_mem_map.2 fun write hmem => contains_iff_mem.2 (hlinks.writes write hmem).2)

end Links

end Substitution

theorem Rule.mem_vars_of_mem_lhs {rule : Rule} {v : Variable} (hv : v ∈ rule.lhs.vars) :
    v ∈ rule.vars :=
  Term.mem_distinct.2 (mem_append_left _ hv)

namespace Findings

variable {findings next : Findings} {pending later : List Obligation}

theorem Met.links {obligation : Obligation} {encounter : Encounter}
    (hmet : findings.Met definition encounter next) (hposes : obligation.Poses encounter)
    (hlinks : findings.subst.Links pattern subject) (hinside : obligation.Inside pattern subject) :
    next.subst.Links pattern subject := by
  cases hmet with
  | @bound v _ _ hget =>
      cases hposes with
      | bind _ _ =>
          exact hlinks.push hget ((Term.inside_iff.1 hinside.1).1 v rfl) hinside.2
      | frame _ _ _ =>
          exact hlinks.push hget ((Term.inside_collection_iff.1 hinside.1).1 v rfl) hinside.2
  | repeated _ _ _ | equated _ _ _ | constrained _ | deferred => exact hlinks

/-- What a step takes up is inside the pattern and the subject, and so is what it leaves. -/
theorem Step.links (hstep : Step definition findings pending next later)
    (hlinks : findings.subst.Links pattern subject)
    (hpending : ∀ obligation ∈ pending, obligation.Inside pattern subject) :
    next.subst.Links pattern subject ∧ ∀ obligation ∈ later, obligation.Inside pattern subject := by
  cases hstep with
  | meet hposes hmet =>
      obtain ⟨hfirst, hothers⟩ := forall_mem_cons.1 hpending
      exact ⟨hmet.links hposes hlinks hfirst, hothers⟩
  | enter hopens =>
      obtain ⟨hfirst, hothers⟩ := forall_mem_cons.1 hpending
      exact ⟨hlinks, forall_mem_append.2 ⟨hopens.inside hfirst, hothers⟩⟩
  | boundSegment _ _ _ _ =>
      obtain ⟨⟨hparts, htaken⟩, hothers⟩ := forall_mem_cons.1 hpending
      rw [Term.inside_sequence_iff] at hparts htaken
      exact ⟨hlinks, forall_mem_cons.2 ⟨⟨Term.inside_sequence_iff.2 (forall_mem_cons.1 hparts).2,
        Term.inside_sequence_iff.2 fun item hmem => htaken item (mem_of_mem_drop hmem)⟩, hothers⟩⟩
  | @freeSegment op v patterns items count _ _ hget _ =>
      obtain ⟨⟨hparts, htaken⟩, hothers⟩ := forall_mem_cons.1 hpending
      rw [Term.inside_sequence_iff] at hparts htaken
      obtain ⟨hvar, hparts⟩ := forall_mem_cons.1 hparts
      have hsegment : subject.Inside (.flatten op (items.take count)) :=
        .flatten fun item hmem => htaken item (mem_of_mem_take hmem)
      exact ⟨hlinks.push hget ((Term.inside_iff.1 hvar).1 v rfl) hsegment,
        forall_mem_cons.2 ⟨⟨Term.inside_sequence_iff.2 hparts,
          Term.inside_sequence_iff.2 fun item hmem => htaken item (mem_of_mem_drop hmem)⟩, hothers⟩⟩
  | @cell part chosen _ _ _ free others _ hchoice =>
      obtain ⟨⟨hparts, htaken⟩, hothers⟩ := forall_mem_cons.1 hpending
      rw [Term.inside_collection_iff] at hparts htaken
      obtain ⟨hframe, hparts⟩ := hparts
      obtain ⟨⟨hpart, hcontent⟩, hparts⟩ := forall_mem_cons.1 hparts
      obtain ⟨hsubjectFrame, htaken⟩ := htaken
      have hall : ∀ cell ∈ chosen :: others.toList,
          cell.id ∈ subject.cellIds ∧ subject.Inside cell.content := fun cell hmem =>
        htaken cell ((perm_of_mem_selections hchoice).mem_iff.2 hmem)
      obtain ⟨⟨htarget, hchosen⟩, hfree⟩ := forall_mem_cons.1 hall
      exact ⟨hlinks.recordCell hpart htarget, forall_mem_cons.2 ⟨⟨hcontent, hchosen⟩,
        forall_mem_cons.2 ⟨⟨Term.inside_collection_iff.2 ⟨hframe, hparts⟩,
          Term.inside_collection_iff.2 ⟨hsubjectFrame, hfree⟩⟩, hothers⟩⟩⟩
  | settle _ _ => exact ⟨hlinks, hpending⟩

end Findings

namespace Definition

/-- By induction on the steps that lead to the match. -/
theorem links_of_mem_found {found : StructuralMatch}
    (hmem : found ∈ (definition.matchPattern pattern subject).found) :
    found.subst.Links pattern subject := by
  obtain ⟨last, hreaches, -, rfl⟩ := mem_found_matchPattern_iff.1 hmem
  clear hmem
  suffices hall : last.findings.subst.Links pattern subject ∧
      ∀ obligation ∈ last.pending, obligation.Inside pattern subject from hall.1
  induction hreaches with
  | refl => exact ⟨.empty pattern subject, forall_mem_singleton.2 ⟨.refl pattern, .refl subject⟩⟩
  | tail _ hleads ih => exact (Branch.step_of_leads hleads).links ih.1 ih.2

/-- Every match, whether it needs constraints or not, binds exactly the variables of the pattern, each
of them once, to terms whose variables and cells are those of the subject. Its writes pair cells of the
pattern with cells of the subject, and a match of a rule binds declared variables only. -/
theorem match_binds_exactly (definition : Definition) (pattern subject : Term) :
    (∀ found ∈ (definition.matchPattern pattern subject).found,
      (found.subst.bindings.map Prod.fst).Nodup ∧
      (∀ v, found.subst.isBound v = true ↔ v ∈ pattern.vars) ∧
      (∀ binding ∈ found.subst.bindings,
        binding.2.vars ⊆ subject.vars ∧ binding.2.cellIds ⊆ subject.cellIds) ∧
      (∀ write ∈ found.subst.writes,
        write.pattern ∈ pattern.cellIds ∧ write.target ∈ subject.cellIds) ∧
      found.subst.writeSetWithin subject = true) ∧
    ∀ rule : Rule, ∀ found ∈ (definition.matchPattern rule.lhs subject).found,
      found.subst.domainWithin rule.vars = true := by
  constructor
  · intro found hmem
    have hlinks := links_of_mem_found hmem
    exact ⟨hlinks.distinct, hlinks.isBound_iff (covers_of_mem_found hmem),
      fun binding hbinding => ⟨(hlinks.values binding hbinding).vars,
        (hlinks.values binding hbinding).cellIds⟩, hlinks.writes, hlinks.writeSetWithin⟩
  · intro rule found hmem
    refine all_eq_true.2 fun binding hbinding => contains_iff_mem.2 ?_
    exact Rule.mem_vars_of_mem_lhs ((links_of_mem_found hmem).keys binding hbinding)

end Definition

namespace Threads

def assigned : Variable := ⟨"X", Symbol.int, .plain⟩

def stored : Variable := ⟨"Y", Symbol.top, .plain⟩

def tasks : Variable := ⟨"TASKS", Symbol.top, .rest⟩

def others : Variable := ⟨"OTHERS", Symbol.top, .rest⟩

def unknown : Variable := ⟨"U", Symbol.top, .plain⟩

/-- The next task assigns a value that the environment has, too. -/
def assigning : Rule where
  id := 0
  lhs := .collection
    [⟨0, "k", .sequence Symbol.sequencing [.app "set" [.var assigned], .var tasks]⟩,
      ⟨1, "env", .app "pair" [.var assigned, .var stored]⟩, ⟨2, "out", .var stored⟩] (some others)
  rhs := .app "done" [.var ⟨"Z", Symbol.int, .fresh⟩]

/-- The environment is unknown, and there is a cell more. -/
def state : Term :=
  .collection [⟨6, "in", .var unknown⟩, ⟨7, "out", .string "b"⟩, ⟨8, "env", .var unknown⟩,
    ⟨9, "k", .sequence Symbol.sequencing [.app "set" [.int 1], .app "stop" [], .app "end" []]⟩] none

/-- The environment is met before its second variable is bound. -/
theorem match_binds_exactly_threads :
    ∃ found ∈ ((Definition.assemble []).matchPattern assigning.lhs state).found,
      found.constraints.isTrivial = false ∧
      found.subst.writes = [⟨0, 9⟩, ⟨1, 8⟩, ⟨2, 7⟩] ∧
      (∀ v, found.subst.isBound v = true ↔ v ∈ assigning.lhs.vars) ∧
      found.subst.writeSetWithin state = true ∧
      found.subst.domainWithin assigning.vars = true := by
  have hfound : (((Definition.assemble []).matchPattern assigning.lhs state).found.toList.any
      fun found => !found.constraints.isTrivial &&
        found.subst.writes == [⟨0, 9⟩, ⟨1, 8⟩, ⟨2, 7⟩]) = true := by
    decide +kernel
  obtain ⟨found, hmem, htest⟩ := any_eq_true.1 hfound
  rw [Bool.and_eq_true, Bool.not_eq_true', beq_iff_eq] at htest
  obtain ⟨hmatches, hrules⟩ := Definition.match_binds_exactly (.assemble []) assigning.lhs state
  replace hmem := Array.mem_toList_iff.1 hmem
  obtain ⟨-, hbound, -, -, hwithin⟩ := hmatches found hmem
  exact ⟨found, hmem, htest.1, htest.2, hbound, hwithin, hrules assigning found hmem⟩

end Threads

end SymbolicRewriting
