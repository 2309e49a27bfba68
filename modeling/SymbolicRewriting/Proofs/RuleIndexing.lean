import Mathlib.Data.List.Basic
import SymbolicRewriting.Matching.Pattern
import SymbolicRewriting.Proofs.Variables

/-!
What the index of rules finds. The positions of the rules with a label and those of the generic rules
are ascending, and so is what they are merged to. Hence the candidates for a subject are the rules that
pass a test of their top labels, in the order of all rules.
-/

namespace SymbolicRewriting

open List

namespace RuleIndex

theorem merge_cons_right {least : Nat} {positions : List Nat}
    (hleast : ∀ position ∈ positions, least < position) (others : List Nat) :
    merge positions (least :: others) = least :: merge positions others := by
  cases positions with
  | nil => rfl
  | cons position positions =>
      have hlt : least < position := hleast position mem_cons_self
      simp [merge, hlt]

theorem merge_cons_left {least : Nat} {others : List Nat}
    (hleast : ∀ position ∈ others, least < position) (positions : List Nat) :
    merge (least :: positions) others = least :: merge positions others := by
  cases others with
  | nil => rfl
  | cons other others =>
      have hle : ¬other < least := Nat.lt_asymm (hleast other mem_cons_self)
      simp [merge, hle]

section Positions

variable {first : Nat} {rules : List Rule}

theorem le_of_mem_positionsFrom {top : Option Label} {position : Nat}
    (hmem : position ∈ positionsFrom first rules top) : first ≤ position := by
  obtain ⟨entry, hentry, rfl⟩ := mem_map.1 hmem
  exact le_snd_of_mem_zipIdx (mem_of_mem_filter hentry)

theorem positionsFrom_cons (rule : Rule) (top : Option Label) :
    positionsFrom first (rule :: rules) top =
      if rule.lhs.topLabel == top then first :: positionsFrom (first + 1) rules top
      else positionsFrom (first + 1) rules top := by
  unfold positionsFrom
  rw [zipIdx_cons, filter_cons]
  split <;> rfl

/-- The positions of the rules with this label at the top or without any. -/
theorem merge_positionsFrom (label : Label) :
    merge (positionsFrom first rules (some label)) (positionsFrom first rules none) =
      ((rules.zipIdx first).filter fun entry =>
        entry.1.lhs.topLabel.isNone || entry.1.lhs.topLabel == some label).map Prod.snd := by
  induction rules generalizing first with
  | nil => rfl
  | cons rule rules ih =>
      have hleast : ∀ top, ∀ position ∈ positionsFrom (first + 1) rules top, first < position :=
        fun top position hmem => le_of_mem_positionsFrom hmem
      rw [positionsFrom_cons, positionsFrom_cons, zipIdx_cons, filter_cons]
      cases hlabel : rule.lhs.topLabel with
      | none => simpa [merge_cons_right (hleast _)] using ih
      | some other =>
          by_cases hsame : other = label
          · simpa [hsame, merge_cons_left (hleast _)] using ih
          · simpa [hsame] using ih

/-- The rules at the positions of those that pass a test. -/
theorem filterMap_positions (keep : Rule → Bool) :
    ((rules.zipIdx.filter fun entry => keep entry.1).map Prod.snd).filterMap
      (fun position => rules.toArray[position]?) = rules.filter keep := by
  have hfound : ∀ entry ∈ rules.zipIdx.filter fun entry => keep entry.1,
      rules.toArray[entry.2]? = some entry.1 := by
    intro entry hmem
    rw [getElem?_toArray]
    exact mem_zipIdx_iff_getElem?.1 (mem_of_mem_filter hmem)
  calc ((rules.zipIdx.filter fun entry => keep entry.1).map Prod.snd).filterMap
        (fun position => rules.toArray[position]?)
      = (rules.zipIdx.filter fun entry => keep entry.1).filterMap fun entry =>
          rules.toArray[entry.2]? := filterMap_map
    _ = (rules.zipIdx.filter fun entry => keep entry.1).filterMap (some ∘ Prod.fst) :=
        filterMap_congr hfound
    _ = (rules.zipIdx.filter (keep ∘ Prod.fst)).map Prod.fst := by rw [filterMap_eq_map]; rfl
    _ = rules.filter keep := by rw [← filter_map, zipIdx_map_fst]

end Positions

theorem lookup_map_entry {α : Type} (entry : Label → α) (labels : List Label) (label : Label) :
    (labels.map fun other => (other, entry other)).lookup label =
      if label ∈ labels then some (entry label) else none := by
  induction labels with
  | nil => rfl
  | cons other labels ih =>
      by_cases hsame : label = other
      · simp [hsame]
      · rw [map_cons, lookup_cons, beq_eq_false_iff_ne.2 hsame, ih]
        simp [hsame]

end RuleIndex

namespace Definition

/-- Can the top of the left side match the top of the subject? Anything may be an instance of a
variable, and only an application matches an application pattern. -/
def mayMatchTop (subject : Term) (rule : Rule) : Bool :=
  match subject with
  | .var _ => true
  | _ => rule.lhs.topLabel.isNone || rule.lhs.topLabel == subject.topLabel

theorem positionsFrom_none (rules : List Rule) : RuleIndex.positionsFrom 0 rules none =
    (rules.zipIdx.filter fun entry => entry.1.lhs.topLabel.isNone).map Prod.snd := by
  unfold RuleIndex.positionsFrom
  congr 1
  exact filter_congr fun entry _ => by cases entry.1.lhs.topLabel <;> rfl

/-- The label of the subject has an entry, or no rule has it at the top. -/
theorem positions_ofRules (rules : List Rule) (subject : Term) :
    (RuleIndex.ofRules rules).positions subject =
      (rules.zipIdx.filter fun entry => mayMatchTop subject entry.1).map Prod.snd := by
  cases subject with
  | var v =>
      have hall : rules.zipIdx.filter (fun entry => mayMatchTop (.var v) entry.1) = rules.zipIdx :=
        filter_eq_self.2 fun _ _ => rfl
      rw [hall, zipIdx_map_snd, ← range_eq_range']
      rfl
  | app label args =>
      have hentry : (RuleIndex.ofRules rules).positions (.app label args) =
          ((RuleIndex.ofRules rules).byLabel.lookup label).getD
            (RuleIndex.positionsFrom 0 rules none) := rfl
      rw [hentry, RuleIndex.ofRules, RuleIndex.lookup_map_entry]
      split
      · exact RuleIndex.merge_positionsFrom label
      · rename_i habsent
        have hother : ∀ entry ∈ rules.zipIdx, mayMatchTop (.app label args) entry.1 =
            entry.1.lhs.topLabel.isNone := by
          intro entry hmem
          have hne : entry.1.lhs.topLabel ≠ some label := fun htop =>
            habsent (Term.mem_distinct.2 (mem_filterMap.2 ⟨entry.1, fst_mem_of_mem_zipIdx hmem, htop⟩))
          change (entry.1.lhs.topLabel.isNone || entry.1.lhs.topLabel == some label) = _
          rw [beq_eq_false_iff_ne.2 hne, Bool.or_false]
        rw [filter_congr hother]
        exact positionsFrom_none rules
  | token _ _ | sequence _ _ | collection _ _ =>
      refine (positionsFrom_none rules).trans ?_
      congr 1
      refine filter_congr fun entry _ => ?_
      simp [mayMatchTop, Term.topLabel]

theorem candidates_eq_filter (definition : Definition) (subject : Term) :
    definition.candidates subject = definition.rewriteRules.filter (mayMatchTop subject) := by
  rw [candidates, definition.index_eq, RuleIndex.candidates, positions_ofRules]
  exact RuleIndex.filterMap_positions _

theorem candidates_sublist (definition : Definition) (subject : Term) :
    (definition.candidates subject).Sublist definition.rewriteRules := by
  rw [definition.candidates_eq_filter]
  exact filter_sublist

/-- An application does not match a term of another form or with another label at the top. -/
theorem matchPattern_of_not_mayMatchTop {definition : Definition} {subject : Term} {rule : Rule}
    (hmay : ¬mayMatchTop subject rule = true) :
    definition.matchPattern rule.lhs subject = {} := by
  refine matchPattern_of_failed ?_
  obtain ⟨label, patterns, hlhs⟩ : ∃ label patterns, rule.lhs = .app label patterns := by
    cases hform : rule.lhs with
    | app label patterns => exact ⟨label, patterns, rfl⟩
    | token _ _ | var _ | sequence _ _ | collection _ _ =>
        refine absurd ?_ hmay
        cases subject <;> simp [mayMatchTop, hform, Term.topLabel]
  cases subject with
  | var v => exact absurd rfl hmay
  | app other args =>
      have hne : label ≠ other := by
        rintro rfl
        exact hmay (by simp [mayMatchTop, hlhs, Term.topLabel])
      rw [hlhs]
      exact if_neg fun hboth => hne hboth.1
  | token _ _ | sequence _ _ | collection _ _ =>
      rw [hlhs]
      rfl

/-- A rule that is left out neither matches nor is undecided, and none of its variables meets two
different terms. -/
theorem matchPattern_of_not_mem_candidates {definition : Definition} {subject : Term} {rule : Rule}
    (hmem : rule ∈ definition.rewriteRules) (hout : rule ∉ definition.candidates subject) :
    definition.matchPattern rule.lhs subject = {} := by
  rw [definition.candidates_eq_filter] at hout
  exact matchPattern_of_not_mayMatchTop fun hmay => hout (mem_filter.2 ⟨hmem, hmay⟩)

theorem mem_rewriteRules_of_mem_candidates {definition : Definition} {subject : Term} {rule : Rule}
    (hmem : rule ∈ definition.candidates subject) : rule ∈ definition.rewriteRules :=
  (definition.candidates_sublist subject).subset hmem

end Definition

end SymbolicRewriting
