import Mathlib.Logic.Relation
import SymbolicRewriting.Proofs.ProofGraph

/-!
Cycles in the graph of a proof search. A cycle without a rule goes through the remainders of
several bases, each of which has a leaf that is closed by the next one, so such a cycle exists
exactly if the bases are closed against each other in a circle.
-/

namespace SymbolicRewriting

open Relation

def Justification.isRule : Justification → Bool
  | rule _ => true
  | circularity => false
  | remainder => false

namespace ProofTree

inductive Path (tree : ProofTree) : NodeId → List ProofTransition → NodeId → Prop
  | nil (id : NodeId) : Path tree id [] id
  | cons {transition : ProofTransition} {path : List ProofTransition} {last : NodeId}
      (hmem : transition ∈ tree.transitions) (hpath : Path tree transition.target path last) :
      Path tree transition.source (transition :: path) last

/-- Every cycle contains the application of a rule. -/
def Progresses (tree : ProofTree) : Prop :=
  ∀ id path, path ≠ [] → tree.Path id path id →
    ∃ transition ∈ path, transition.justification.isRule = true

/-- One transition leads from the source to the target without a rule. -/
def Idles (tree : ProofTree) (source target : NodeId) : Prop :=
  ∃ justification, ⟨source, target, justification⟩ ∈ tree.transitions ∧
    justification.isRule = false

/-- A leaf of the one base is closed by a node of the other. -/
def ClosedAgainst (tree : ProofTree) (base other : NodeId) : Prop :=
  ∃ leaf earlier node, tree.IsCircular leaf base earlier ∧
    tree.node? earlier = some node ∧ node.base = other

theorem Path.idles {tree : ProofTree} {first last : NodeId} {path : List ProofTransition}
    (hpath : tree.Path first path last)
    (hidle : ∀ transition ∈ path, transition.justification.isRule = false) :
    ReflTransGen tree.Idles first last ∧ (path ≠ [] → TransGen tree.Idles first last) := by
  induction hpath with
  | nil id => exact ⟨.refl, fun hnil => absurd rfl hnil⟩
  | @cons transition path last hmem hpath ih =>
      obtain ⟨hfirst, hothers⟩ := List.forall_mem_cons.1 hidle
      have hrest := (ih hothers).1
      have hstep : tree.Idles transition.source transition.target := ⟨_, hmem, hfirst⟩
      exact ⟨.head hstep hrest, fun _ => .head' hstep hrest⟩

theorem exists_path_of_idles {tree : ProofTree} {first last : NodeId}
    (hidles : TransGen tree.Idles first last) :
    ∃ path, path ≠ [] ∧ tree.Path first path last ∧
      ∀ transition ∈ path, transition.justification.isRule = false := by
  induction hidles using TransGen.head_induction_on with
  | single hstep =>
      obtain ⟨justification, hmem, hidle⟩ := hstep
      refine ⟨_, List.cons_ne_nil _ [], .cons hmem (.nil _), ?_⟩
      rw [List.forall_mem_singleton]
      exact hidle
  | head hstep _ ih =>
      obtain ⟨justification, hmem, hidle⟩ := hstep
      obtain ⟨path, -, hpath, hothers⟩ := ih
      refine ⟨_, List.cons_ne_nil _ path, .cons hmem hpath, ?_⟩
      rw [List.forall_mem_cons]
      exact ⟨hidle, hothers⟩

theorem progresses_iff_not_idles {tree : ProofTree} :
    tree.Progresses ↔ ∀ id, ¬TransGen tree.Idles id id := by
  constructor
  · intro hprogresses id hcycle
    obtain ⟨path, hnonempty, hpath, hidle⟩ := exists_path_of_idles hcycle
    obtain ⟨transition, hmem, hrule⟩ := hprogresses id path hnonempty hpath
    rw [hidle transition hmem] at hrule
    cases hrule
  · intro hidles id path hnonempty hpath
    apply Classical.byContradiction
    intro hnone
    refine hidles id ((hpath.idles ?_).2 hnonempty)
    intro transition hmem
    cases hrule : transition.justification.isRule with
    | false => rfl
    | true => exact absurd ⟨transition, hmem, hrule⟩ hnone

namespace Chained

variable {tree : ProofTree}

theorem descends (hchained : tree.Chained) {id : NodeId} {node : ProofNode}
    (hnode : tree.node? id = some node) : ReflTransGen tree.HasRemainder node.base id := by
  induction id using Nat.strongRecOn generalizing node with
  | ind id ih =>
      by_cases hbase : node.base = id
      · rw [hbase]
      · obtain ⟨parent, hremainder⟩ := hchained.exists_parent id node hnode hbase
        obtain ⟨hlt, child, hchild, ancestor, hancestor, hsame, -⟩ :=
          hchained.remainder parent id hremainder
        rw [hnode, Option.some.injEq] at hchild
        have hdescends := ih parent hlt hancestor
        rw [hsame, ← hchild] at hdescends
        exact hdescends.tail hremainder

/-- A node that is not expanded is the last one of its chain. -/
theorem descends_of_not_isExpanded (hchained : tree.Chained) {id leaf : NodeId}
    {node leafNode : ProofNode} (hnode : tree.node? id = some node)
    (hleaf : tree.node? leaf = some leafNode) (hbase : node.base = leafNode.base)
    (hstatus : leafNode.status.isExpanded = false) :
    ReflTransGen tree.HasRemainder id leaf := by
  have hunique : Relator.RightUnique tree.HasRemainder :=
    fun parent child other => hchained.remainder_unique parent child other
  rcases ReflTransGen.total_of_right_unique hunique (hchained.descends hnode)
    (hbase ▸ hchained.descends hleaf) with hdescends | hascends
  · exact hdescends
  · -- the leaf has no remainder, so it can only be the node itself
    rcases ReflTransGen.cases_head hascends with rfl | ⟨child, hremainder, -⟩
    · exact .refl
    · obtain ⟨-, _, -, expanded, hexpanded, -, htrue⟩ := hchained.remainder leaf child hremainder
      rw [hleaf, Option.some.injEq] at hexpanded
      rw [← hexpanded, hstatus] at htrue
      cases htrue

end Chained

namespace WellFormed

variable {tree : ProofTree}

/-- Without a rule, a search goes from a node to a remainder of the same base or to a base that the
base of the node is closed against. -/
theorem remainder_or_closedAgainst (hwell : tree.WellFormed) {source target : NodeId}
    (hidles : tree.Idles source target) :
    ∃ node other, tree.node? source = some node ∧ tree.node? target = some other ∧
      (source < target ∧ node.base = other.base ∨ tree.ClosedAgainst node.base other.base) := by
  obtain ⟨justification, hmem, hidle⟩ := hidles
  cases justification with
  | rule rule => cases hidle
  | remainder =>
      obtain ⟨hlt, child, hchild, parent, hparent, hbase, -⟩ := hwell.remainder source target hmem
      exact ⟨parent, child, hparent, hchild, .inl ⟨hlt, hbase⟩⟩
  | circularity =>
      obtain ⟨base, other, hcircular, ⟨earlier, hearlier, -, -⟩, -⟩ :=
        hwell.circularity source target hmem
      have hclosed : tree.ClosedAgainst base earlier.base :=
        ⟨source, target, earlier, hcircular, hearlier, rfl⟩
      obtain ⟨leaf, hleaf, rfl, -⟩ := hcircular
      exact ⟨leaf, earlier, hleaf, hearlier, .inr hclosed⟩

theorem closedAgainst_of_idles (hwell : tree.WellFormed) {source target : NodeId}
    (hidles : TransGen tree.Idles source target) :
    ∃ node other, tree.node? source = some node ∧ tree.node? target = some other ∧
      (source < target ∧ node.base = other.base ∨
        TransGen tree.ClosedAgainst node.base other.base) := by
  induction hidles with
  | single hstep =>
      obtain ⟨node, other, hnode, hother, hsame | hclosed⟩ := hwell.remainder_or_closedAgainst hstep
      · exact ⟨node, other, hnode, hother, .inl hsame⟩
      · exact ⟨node, other, hnode, hother, .inr (.single hclosed)⟩
  | tail _ hstep ih =>
      obtain ⟨node, middle, hnode, hmiddle, hbefore⟩ := ih
      obtain ⟨middle', other, hmiddle', hother, hafter⟩ := hwell.remainder_or_closedAgainst hstep
      obtain rfl : middle = middle' := Option.some.inj (hmiddle.symm.trans hmiddle')
      refine ⟨node, other, hnode, hother, ?_⟩
      -- remainders stay within a base, so only circularities count
      rcases hbefore with ⟨hlt, hbase⟩ | hclosed <;> rcases hafter with ⟨hless, hsame⟩ | hnext
      · exact .inl ⟨Nat.lt_trans hlt hless, hbase.trans hsame⟩
      · exact .inr (hbase ▸ .single hnext)
      · exact .inr (hsame ▸ hclosed)
      · exact .inr (hclosed.tail hnext)

theorem idles_of_closedAgainst (hwell : tree.WellFormed) {base other : NodeId}
    (hclosed : tree.ClosedAgainst base other) :
    ∃ leaf earlier, tree.IsCircular leaf base earlier ∧ tree.IsExpanded earlier other ∧
      tree.Idles leaf earlier := by
  obtain ⟨leaf, earlier, node, hcircular, hnode, rfl⟩ := hclosed
  have htransition := hwell.circular leaf base earlier hcircular
  obtain ⟨_, _, -, ⟨expanded, hexpanded, -, hstatus⟩, -⟩ :=
    hwell.circularity leaf earlier htransition
  obtain rfl : node = expanded := Option.some.inj (hnode.symm.trans hexpanded)
  exact ⟨leaf, earlier, hcircular, ⟨node, hnode, rfl, hstatus⟩, .circularity, htransition, rfl⟩

/-- From an expanded node remainders lead to every closed leaf of its base. -/
theorem idles_of_isCircular (hwell : tree.WellFormed) {id base leaf earlier : NodeId}
    (hexpanded : tree.IsExpanded id base) (hcircular : tree.IsCircular leaf base earlier) :
    ReflTransGen tree.Idles id leaf := by
  obtain ⟨node, hnode, hbase, -⟩ := hexpanded
  obtain ⟨leafNode, hleaf, hleafBase, hstatus⟩ := hcircular
  have hdescends := hwell.descends_of_not_isExpanded hnode hleaf (hbase.trans hleafBase.symm)
    (by rw [hstatus]; rfl)
  have hidles : tree.HasRemainder ≤ tree.Idles :=
    fun parent child hremainder => ⟨.remainder, hremainder, rfl⟩
  exact ReflTransGen.mono hidles _ _ hdescends

theorem idles_of_transGen_closedAgainst (hwell : tree.WellFormed) {base other : NodeId}
    (hclosed : TransGen tree.ClosedAgainst base other) :
    ∃ leaf leafEarlier earlier, tree.IsCircular leaf base leafEarlier ∧
      tree.IsExpanded earlier other ∧ TransGen tree.Idles leaf earlier := by
  induction hclosed with
  | single hstep =>
      obtain ⟨leaf, earlier, hcircular, hexpanded, hidles⟩ := hwell.idles_of_closedAgainst hstep
      exact ⟨leaf, earlier, earlier, hcircular, hexpanded, .single hidles⟩
  | tail _ hstep ih =>
      obtain ⟨leaf, leafEarlier, earlier, hcircular, hearlier, hbefore⟩ := ih
      obtain ⟨next, last, hnext, hlast, hafter⟩ := hwell.idles_of_closedAgainst hstep
      have hbetween := hwell.idles_of_isCircular hearlier hnext
      exact ⟨leaf, leafEarlier, last, hcircular, hlast, (hbefore.trans_left hbetween).tail hafter⟩

/-- Every cycle contains a rule, unless some bases are closed against each other in a circle. -/
theorem progresses_iff (hwell : tree.WellFormed) :
    tree.Progresses ↔ ∀ base, ¬TransGen tree.ClosedAgainst base base := by
  rw [progresses_iff_not_idles]
  constructor
  · intro hidles base hcircle
    obtain ⟨leaf, leafEarlier, earlier, hcircular, hexpanded, hbetween⟩ :=
      hwell.idles_of_transGen_closedAgainst hcircle
    exact hidles leaf (hbetween.trans_left (hwell.idles_of_isCircular hexpanded hcircular))
  · intro hcloses id hcycle
    obtain ⟨node, other, hnode, hother, ⟨hlt, -⟩ | hcircle⟩ := hwell.closedAgainst_of_idles hcycle
    · exact Nat.lt_irrefl id hlt
    · obtain rfl : node = other := Option.some.inj (hnode.symm.trans hother)
      exact hcloses node.base hcircle

end WellFormed

end ProofTree

end SymbolicRewriting
