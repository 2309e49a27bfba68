import SymbolicRewriting.Proofs.MatchProgress

/-!
Progress with the items of sequences. A rest variable tries the segments that leave enough items for the
later patterns, each counted as one. So it finds what it stands for as long as no segment of the subject
is among the items that it has to leave, and comes to a segment that is undecided otherwise.
-/

namespace SymbolicRewriting

open List

variable {definition : Definition} {patterns : Grammar} {subjects : Variable → Place → Prop}
  {ρ θ : Substitution}

namespace Obligation

theorem Accepted.exists_item {op : Label} {pattern : Term} {patterns values : List Term}
    (haccepted : (items op (pattern :: patterns) values).Accepted ρ)
    (hrest : pattern.isRestVar = false) :
    ∃ value later, values = value :: later ∧ (term pattern value).Accepted ρ ∧
      (items op patterns later).Accepted ρ := by
  cases haccepted with
  | bind hposes _ => cases hposes
  | enter hopens hopened =>
      cases hopens with
      | item _ _ _ _ _ =>
          obtain ⟨hitem, hlater⟩ := List.forall_mem_cons.1 hopened
          exact ⟨_, _, rfl, hitem, hlater _ List.mem_cons_self⟩
  | segment hv _ _ => exact absurd (hv.symm.trans hrest) (by simp)

theorem Accepted.exists_segment {op : Label} {v : Variable} {patterns values : List Term}
    (haccepted : (items op (.var v :: patterns) values).Accepted ρ) (hrest : v.isRest = true) :
    ∃ run later, values = run ++ later ∧ ρ.Binds v (.sequence op run) ∧
      (items op patterns later).Accepted ρ := by
  cases haccepted with
  | bind hposes _ => cases hposes
  | enter hopens _ =>
      cases hopens with
      | item _ _ _ hpattern _ => exact absurd (hrest.symm.trans hpattern) (by simp)
  | segment _ hbinds hlater => exact ⟨_, _, rfl, hbinds, hlater⟩

theorem Accepted.eq_nil {op : Label} {values : List Term}
    (haccepted : (items op [] values).Accepted ρ) : values = [] := by
  cases haccepted with
  | bind hposes _ => cases hposes
  | enter hopens _ =>
      cases hopens with
      | exhausted _ => rfl

/-- Patterns that need an item each take as many items, and more only with a rest variable. -/
theorem Accepted.needed {op : Label} {patterns values : List Term}
    (haccepted : (items op patterns values).Accepted ρ) : SegmentFits patterns values 0 := by
  unfold SegmentFits
  rw [Nat.zero_add]
  induction patterns generalizing values with
  | nil =>
      rw [haccepted.eq_nil]
      exact ⟨Nat.le_refl 0, fun _ => rfl⟩
  | cons pattern patterns ih =>
      rw [Term.needed, countP_cons, any_cons]
      cases hrest : pattern.isRestVar with
      | false =>
          obtain ⟨value, later, rfl, -, hlater⟩ := haccepted.exists_item hrest
          obtain ⟨hle, heq⟩ := ih hlater
          rw [length_cons]
          exact ⟨Nat.succ_le_succ hle, fun hany => congrArg Nat.succ (heq hany)⟩
      | true =>
          obtain ⟨v, rfl, hv⟩ := Term.exists_of_isRestVar hrest
          obtain ⟨run, later, rfl, -, hlater⟩ := haccepted.exists_segment hv
          obtain ⟨hle, -⟩ := ih hlater
          rw [length_append]
          refine ⟨?_, fun hany => by cases hany⟩
          simp only [Term.needed] at hle
          simp only [Bool.not_true, Bool.false_eq_true, if_false]
          omega

end Obligation

/-- Items that are no segments contribute one item each. -/
theorem Term.length_spread {op : Label} {items : List Term}
    (hitems : ∀ item ∈ items, item.Conforms (.over subjects) (.item op))
    (hfills : ∀ v place, subjects v place → θ.Fills v place)
    (hrest : ∀ item ∈ items, item.isRestVar = false) :
    (spread op θ items).length = items.length := by
  induction items with
  | nil => rfl
  | cons item items ih =>
      obtain ⟨hitem, hitems⟩ := List.forall_mem_cons.1 hitems
      obtain ⟨hfirst, hrest⟩ := List.forall_mem_cons.1 hrest
      rw [spread_cons, hitem.itemsOf_instantiate_eq hfills hfirst, length_append, ih hitems hrest,
        length_singleton, length_cons, Nat.add_comm]

theorem forall_mem_drop_of_succ {α : Type} {property : α → Prop} {xs : List α} {count : Nat}
    (hfirst : ∀ x others, xs.drop count = x :: others → property x)
    (hlater : ∀ x ∈ xs.drop (count + 1), property x) : ∀ x ∈ xs.drop count, property x := by
  intro x hmem
  rw [← tail_drop] at hlater
  cases hdrop : xs.drop count with
  | nil =>
      rw [hdrop] at hmem
      cases hmem
  | cons first others =>
      rw [hdrop] at hmem hlater
      rcases List.mem_cons.1 hmem with rfl | hother
      · exact hfirst x others hdrop
      · exact hlater x hother

namespace Findings

variable {findings : Findings} {pending : List Obligation}

theorem proceeds_of_exhausted (hcompatible : Compatible definition patterns subjects ρ θ)
    {op : Label} {parts : List Term}
    (hstands : (findings.branch (.items op [] parts :: pending)).Stands patterns subjects ρ θ) :
    (findings.branch (.items op [] parts :: pending)).Proceeds definition patterns subjects ρ θ := by
  have haccepted : (Obligation.items op [] (Term.spread op θ parts)).Accepted ρ :=
    hstands.accepted _ List.mem_cons_self
  have hempty := haccepted.eq_nil
  have hparts := (hstands.conforms.pending _ List.mem_cons_self).2.items
  cases parts with
  | nil => exact proceeds_of_opens hstands (.exhausted op) (List.forall_mem_nil _)
  | cons first parts =>
      refine .inr (.inl (.inl ⟨_, _, rfl, .leftOver (List.cons_ne_nil _ _) fun item hmem => ?_⟩))
      by_contra hrest
      rw [Bool.not_eq_true] at hrest
      have hitem := (hparts item hmem).itemsOf_instantiate_eq hcompatible.fills hrest
      rw [List.flatMap_eq_nil_iff.1 hempty item hmem] at hitem
      cases hitem

theorem undecided_of_segment {op : Label} {pattern item : Term} (hpattern : pattern.isRestVar = false)
    (hitem : item.isRestVar = true) (patterns parts : List Term) :
    (findings.branch (.items op (pattern :: patterns) (item :: parts) :: pending)).advance
      definition = .undecided := by
  rw [advance_item findings pending hpattern, Branch.takeItem, if_pos hitem]

theorem proceeds_of_item (hcompatible : Compatible definition patterns subjects ρ θ) {op : Label}
    {pattern : Term} (hpattern : pattern.isRestVar = false) {later parts : List Term}
    (hstands : (findings.branch (.items op (pattern :: later) parts :: pending)).Stands patterns
      subjects ρ θ) :
    (findings.branch (.items op (pattern :: later) parts :: pending)).Proceeds definition patterns
      subjects ρ θ := by
  have haccepted : (Obligation.items op (pattern :: later) (Term.spread op θ parts)).Accepted ρ :=
    hstands.accepted _ List.mem_cons_self
  obtain ⟨value, values, hspread, hvalue, hvalues⟩ := haccepted.exists_item hpattern
  have hparts := (hstands.conforms.pending _ List.mem_cons_self).2.items
  cases parts with
  | nil => cases hspread
  | cons item parts =>
      cases hitem : item.isRestVar with
      | true => exact .inl (undecided_of_segment hpattern hitem later parts)
      | false =>
          have hsingle := (hparts item List.mem_cons_self).itemsOf_instantiate_eq hcompatible.fills
            hitem
          rw [Term.spread_cons, hsingle] at hspread
          cases hspread
          exact proceeds_of_opens hstands (.item op later parts hpattern hitem)
            (List.forall_mem_cons.2 ⟨hvalue, List.forall_mem_singleton.2 hvalues⟩)

/-- A bound rest variable that takes items takes those that its instance stands for. -/
theorem spread_take_eq_of_returns {op : Label} {bound parts run later : List Term}
    (htaken : (parts.take bound.length == bound) = true)
    (hrun : Forall₂ Term.EqualTo (Term.spread op θ bound) run)
    (hspread : Term.spread op θ parts = run ++ later) :
    Term.spread op θ (parts.drop bound.length) = later := by
  have htake := (Term.forall₂_spread op θ (Term.list_beq_iff.1 htaken)).length_eq
  rw [← Term.spread_take_append_drop op θ bound.length parts] at hspread
  exact (append_inj hspread (htake.trans hrun.length_eq)).2

theorem exists_run_of_bound (hcompatible : Compatible definition patterns subjects ρ θ)
    (hconforms : findings.Conforms patterns subjects) {op : Label} {v : Variable} {bound : Term}
    {run : List Term} (hrest : v.isRest = true) (hget : findings.subst.get? v = some bound)
    (hbound : ρ.Binds v (bound.instantiate θ)) (hrun : ρ.Binds v (.sequence op run)) :
    ∃ items, bound = .sequence op items ∧ Forall₂ Term.EqualTo (Term.spread op θ items) run := by
  obtain ⟨value, hvalue, hequal⟩ := hbound
  obtain ⟨value', hvalue', hequal'⟩ := hrun
  cases hvalue.symm.trans hvalue'
  have hinstance := hequal.symm.trans hequal'
  obtain ⟨-, place, hplace, hyields⟩ := hconforms.bound v bound hget
  cases place with
  | alone => exact absurd (hrest.symm.trans (hcompatible.plain v hplace)) (by simp)
  | item inner =>
      obtain ⟨items, rfl⟩ := hyields hrest
      rw [Term.instantiate_sequence] at hinstance
      cases hinstance.sameForm with
      | sequence _ hitems => exact ⟨items, rfl, hitems⟩
  | frame =>
      obtain ⟨cells, frame, rfl⟩ := hyields
      obtain ⟨more, inner, hcollection⟩ := Term.exists_instantiate_collection frame θ
      rw [hcollection] at hinstance
      cases hinstance.sameForm

/-- Ground items are found again literally. -/
theorem takes_of_isGround {op : Label} {bound parts run later : List Term}
    (hparts : ∀ part ∈ parts, part.Conforms (.over subjects) (.item op))
    (hground : ∀ part ∈ parts.take bound.length, part.isGround = true)
    (hfills : ∀ v place, subjects v place → θ.Fills v place)
    (hrun : Forall₂ Term.EqualTo bound run) (hspread : Term.spread op θ parts = run ++ later) :
    bound.length ≤ parts.length ∧ (parts.take bound.length == bound) = true := by
  have htake : Term.spread op θ (parts.take bound.length) = parts.take bound.length := by
    refine (flatMap_congr fun part hmem => ?_).trans (flatMap_singleton' _)
    have hpart := hparts part (mem_of_mem_take hmem)
    have hrest : part.isRestVar = false := by
      have hpartGround := hground part hmem
      cases part with
      | var _ => cases hpartGround
      | token _ _ | app _ _ | sequence _ _ | collection _ _ => rfl
    have hinstance : part.instantiate θ = part :=
      (hpart.single_of_item hrest).instantiate_of_isGround (hground part hmem) θ
    rw [hpart.itemsOf_instantiate_eq hfills hrest, hinstance]
  rw [← Term.spread_take_append_drop op θ bound.length parts, htake] at hspread
  have hlength : bound.length ≤ parts.length := by
    by_contra hshort
    have hall : parts.length ≤ bound.length := Nat.le_of_not_le hshort
    rw [drop_eq_nil_of_le hall, Term.spread_nil, append_nil, take_of_length_le hall] at hspread
    have hsum := congrArg List.length hspread
    rw [length_append, ← hrun.length_eq] at hsum
    omega
  have hlengths : (parts.take bound.length).length = run.length := by
    rw [length_take, Nat.min_eq_left hlength, hrun.length_eq]
  refine ⟨hlength, Term.list_beq_iff.2 ?_⟩
  rw [(append_inj hspread hlengths).1]
  exact Term.forall₂_equalTo_symm hrun

theorem proceeds_of_boundSegment (hcompatible : Compatible definition patterns subjects ρ θ)
    {op : Label} {v : Variable} {bound : Term} (hrest : v.isRest = true)
    (hget : findings.subst.get? v = some bound) {later parts : List Term}
    (hstands : (findings.branch (.items op (.var v :: later) parts :: pending)).Stands patterns
      subjects ρ θ) :
    (findings.branch (.items op (.var v :: later) parts :: pending)).Proceeds definition patterns
      subjects ρ θ := by
  have haccepted : (Obligation.items op (.var v :: later) (Term.spread op θ parts)).Accepted ρ :=
    hstands.accepted _ List.mem_cons_self
  obtain ⟨run, values, hspread, hbinds, hvalues⟩ := haccepted.exists_segment hrest
  have hparts := (hstands.conforms.pending _ List.mem_cons_self).2.items
  have hfindings : findings.Conforms patterns subjects := hstands.conforms.findings
  have hboundSingle := (hfindings.bound v bound hget).1
  obtain ⟨items, rfl, hrun⟩ := exists_run_of_bound hcompatible hfindings hrest hget
    (hstands.agrees v bound hget) hbinds
  have hadvance : (findings.branch (.items op (.var v :: later) parts :: pending)).advance
      definition = _ := advance_boundSegment findings pending hrest hget op later parts
  have hitems : (Term.sequence op items).itemsOf op = items := if_pos rfl
  rw [hitems] at hadvance
  cases htaken : (parts.take items.length == items) with
  | true =>
      have hlength : items.length ≤ parts.length := by
        have htake := (Term.list_beq_iff.1 htaken).length_eq
        rw [length_take] at htake
        omega
      rw [htaken, decide_eq_true hlength] at hadvance
      refine hstands.proceeds_of_leads ⟨_, hadvance, List.mem_singleton_self _⟩ hstands.agrees ?_
      refine List.forall_mem_cons.2 ⟨?_, (List.forall_mem_cons.1 hstands.accepted).2⟩
      rw [Obligation.instantiate, spread_take_eq_of_returns htaken hrun hspread]
      exact hvalues
  | false =>
      refine .inr (.inl (.inl ⟨_, _, rfl, .returning hrest hget ?_ ?_⟩))
      · rwa [hitems]
      · rw [hitems]
        rintro ⟨hboundGround, hground⟩
        have hsame := hboundSingle.instantiate_of_isGround hboundGround θ
        rw [Term.instantiate_sequence, Term.sequence.injEq] at hsame
        rw [hsame.2] at hrun
        have htakes := takes_of_isGround hparts hground hcompatible.fills hrun hspread
        exact absurd (htakes.2.symm.trans htaken) (by simp)

/-- The rest variable takes what it stands for. -/
theorem proceeds_of_run {op : Label} {v : Variable} {later parts run values : List Term}
    {count : Nat} (hrest : v.isRest = true) (hget : findings.subst.get? v = none)
    (hbinds : ρ.Binds v (.sequence op run)) (hvalues : (Obligation.items op later values).Accepted ρ)
    (hspread : Term.spread op θ parts = run ++ values) (hfits : SegmentFits later parts count)
    (hrun : Term.spread op θ (parts.take count) = run)
    (hstands : (findings.branch (.items op (.var v :: later) parts :: pending)).Stands patterns
      subjects ρ θ) :
    (findings.branch (.items op (.var v :: later) parts :: pending)).Proceeds definition patterns
      subjects ρ θ := by
  refine hstands.proceeds_of_leads
    ((leads_freeSegment_iff findings pending hrest hget).2 ⟨count, hfits, rfl⟩) ?_ ?_
  · intro w term hterm
    change (findings.subst.push v (Term.flatten op (parts.take count))).get? w = some term at hterm
    rw [Substitution.get?_push hget] at hterm
    by_cases heq : v = w
    · rw [if_pos heq] at hterm
      cases hterm
      rw [Term.instantiate_flatten_eq, hrun]
      exact heq ▸ hbinds
    · rw [if_neg heq] at hterm
      exact hstands.agrees w term hterm
  · refine List.forall_mem_cons.2 ⟨?_, (List.forall_mem_cons.1 hstands.accepted).2⟩
    rw [← Term.spread_take_append_drop op θ count parts, hrun, append_cancel_left_eq] at hspread
    rw [Obligation.instantiate, hspread]
    exact hvalues

/-- The rest variable leaves a segment to a pattern that is none. -/
theorem proceeds_of_segment {op : Label} {v : Variable} {pattern item : Term}
    {later parts others : List Term} {count : Nat} (hrest : v.isRest = true)
    (hget : findings.subst.get? v = none) (hfits : SegmentFits (pattern :: later) parts count)
    (hdrop : parts.drop count = item :: others) (hpattern : pattern.isRestVar = false)
    (hitem : item.isRestVar = true) :
    (findings.branch (.items op (.var v :: pattern :: later) parts :: pending)).Proceeds definition
      patterns subjects ρ θ := by
  refine .inr (.inr ⟨_, (leads_freeSegment_iff findings pending hrest hget).2 ⟨count, hfits, rfl⟩,
    .inr ?_⟩)
  rw [hdrop]
  exact undecided_of_segment hpattern hitem later others

theorem length_spread_take {op : Label} {parts : List Term} {count : Nat}
    (hparts : ∀ part ∈ parts, part.Conforms (.over subjects) (.item op))
    (hfills : ∀ v place, subjects v place → θ.Fills v place)
    (hrest : ∀ part ∈ parts.take count, part.isRestVar = false) (hcount : count ≤ parts.length) :
    (Term.spread op θ (parts.take count)).length = count := by
  rw [Term.length_spread (fun part hmem => hparts part (mem_of_mem_take hmem)) hfills hrest,
    length_take, Nat.min_eq_left hcount]

/-- The run is found if no segment of the subject is among the first items, as many as it has. -/
theorem proceeds_of_prefix (hcompatible : Compatible definition patterns subjects ρ θ) {op : Label}
    {v : Variable} {later parts run values : List Term} (hrest : v.isRest = true)
    (hget : findings.subst.get? v = none) (hbinds : ρ.Binds v (.sequence op run))
    (hvalues : (Obligation.items op later values).Accepted ρ)
    (hspread : Term.spread op θ parts = run ++ values)
    (hfits : SegmentFits later parts run.length)
    (htake : ∀ item ∈ parts.take run.length, item.isRestVar = false)
    (hstands : (findings.branch (.items op (.var v :: later) parts :: pending)).Stands patterns
      subjects ρ θ) :
    (findings.branch (.items op (.var v :: later) parts :: pending)).Proceeds definition patterns
      subjects ρ θ := by
  have hparts := (hstands.conforms.pending _ List.mem_cons_self).2.items
  have hsplit := Term.spread_take_append_drop op θ run.length parts
  rw [hspread] at hsplit
  have hlength := length_spread_take hparts hcompatible.fills htake (Nat.le_of_add_right_le hfits.1)
  exact proceeds_of_run hrest hget hbinds hvalues hspread hfits (append_inj hsplit hlength).1 hstands

/-- Without a later rest variable the segment is as long as it can be. -/
theorem proceeds_of_last (hcompatible : Compatible definition patterns subjects ρ θ) {op : Label}
    {v : Variable} {later parts run values : List Term} (hrest : v.isRest = true)
    (hget : findings.subst.get? v = none) (hlast : later.any Term.isRestVar = false)
    (hkept : ∀ item ∈ parts.drop (parts.length + 1 - Term.needed later), item.isRestVar = false)
    (hbinds : ρ.Binds v (.sequence op run)) (hvalues : (Obligation.items op later values).Accepted ρ)
    (hspread : Term.spread op θ parts = run ++ values)
    (hstands : (findings.branch (.items op (.var v :: later) parts :: pending)).Stands patterns
      subjects ρ θ) :
    (findings.branch (.items op (.var v :: later) parts :: pending)).Proceeds definition patterns
      subjects ρ θ := by
  have hparts := (hstands.conforms.pending _ List.mem_cons_self).2.items
  have hlength : Term.needed later = values.length := by
    have hneeded := hvalues.needed.2 hlast
    rwa [Nat.zero_add] at hneeded
  have htotal := congrArg List.length hspread
  rw [length_append] at htotal
  have hneeded : Term.needed later ≤ parts.length := by
    by_contra hshort
    have hzero : parts.length + 1 - Term.needed later = 0 := by omega
    rw [hzero, drop_zero] at hkept
    rw [Term.length_spread hparts hcompatible.fills hkept] at htotal
    omega
  have hfits : SegmentFits later parts (parts.length - Term.needed later) :=
    ⟨by omega, fun _ => by omega⟩
  rw [Nat.sub_add_comm hneeded] at hkept
  by_cases hsegment : ∃ item others,
      parts.drop (parts.length - Term.needed later) = item :: others ∧ item.isRestVar = true
  · obtain ⟨item, others, hdrop, hitem⟩ := hsegment
    cases later with
    | nil =>
        rw [Term.needed, countP_nil, Nat.sub_zero, drop_length] at hdrop
        cases hdrop
    | cons pattern later =>
        rw [any_cons, Bool.or_eq_false_iff] at hlast
        exact proceeds_of_segment hrest hget hfits hdrop hlast.1 hitem
  · have hleft := forall_mem_drop_of_succ (fun item others hdrop =>
      (Bool.not_eq_true _).mp fun hitem => hsegment ⟨item, others, hdrop, hitem⟩) hkept
    have hdropLength : (Term.spread op θ (parts.drop (parts.length - Term.needed later))).length =
        values.length := by
      rw [Term.length_spread (fun part hmem => hparts part (mem_of_mem_drop hmem))
        hcompatible.fills hleft, length_drop, ← hlength]
      omega
    have hsplit := Term.spread_take_append_drop op θ (parts.length - Term.needed later) parts
    rw [hspread] at hsplit
    exact proceeds_of_run hrest hget hbinds hvalues hspread hfits
      (append_inj_left' hsplit hdropLength) hstands

/-- With a later rest variable the segment may be of any length up to the first segment of the
subject. -/
theorem proceeds_of_earlier (hcompatible : Compatible definition patterns subjects ρ θ) {op : Label}
    {v : Variable} {later parts run values : List Term} (hrest : v.isRest = true)
    (hget : findings.subst.get? v = none) (hearlier : later.any Term.isRestVar = true)
    (hkept : ∀ item ∈ parts.drop (parts.length + 1 - Term.needed later), item.isRestVar = false)
    (hbinds : ρ.Binds v (.sequence op run)) (hvalues : (Obligation.items op later values).Accepted ρ)
    (hspread : Term.spread op θ parts = run ++ values)
    (hstands : (findings.branch (.items op (.var v :: later) parts :: pending)).Stands patterns
      subjects ρ θ) :
    (findings.branch (.items op (.var v :: later) parts :: pending)).Proceeds definition patterns
      subjects ρ θ := by
  have hparts := (hstands.conforms.pending _ List.mem_cons_self).2.items
  have hneeded := hvalues.needed.1
  rw [Nat.zero_add] at hneeded
  have hfits : ∀ count, count + Term.needed later ≤ parts.length →
      SegmentFits later parts count := fun count hcount =>
    ⟨hcount, fun hnone => absurd (hearlier.symm.trans hnone) (by simp)⟩
  cases hfirst : parts.find? Term.isRestVar with
  | none =>
      have hnone : ∀ item ∈ parts, item.isRestVar = false := by
        simpa using hfirst
      have htotal := congrArg List.length hspread
      rw [length_append, Term.length_spread hparts hcompatible.fills hnone] at htotal
      exact proceeds_of_prefix hcompatible hrest hget hbinds hvalues hspread
        (hfits run.length (by omega)) (fun item hmem => hnone item (mem_of_mem_take hmem)) hstands
  | some item =>
      obtain ⟨hitem, before, after, rfl, hbefore⟩ := List.find?_eq_some_iff_append.1 hfirst
      have hbefore : ∀ part ∈ before, part.isRestVar = false := by simpa using hbefore
      have hshort : ∀ count ≤ before.length,
          count + Term.needed later ≤ (before ++ item :: after).length := by
        intro count hcount
        by_contra hlong
        rw [hkept item] at hitem
        · cases hitem
        · rw [drop_append_of_le_length (by omega)]
          exact List.mem_append_right _ List.mem_cons_self
      cases later with
      | nil => cases hearlier
      | cons pattern later =>
          cases hpattern : pattern.isRestVar with
          | true =>
              obtain ⟨next, rfl, hnext⟩ := Term.exists_of_isRestVar hpattern
              exact .inr (.inl (.inl ⟨_, _, rfl, .adjacent hrest hnext hget
                ⟨item, List.mem_append_right _ List.mem_cons_self, hitem⟩⟩))
          | false =>
              rcases Nat.lt_or_ge before.length run.length with hlong | hlength
              · exact proceeds_of_segment hrest hget (hfits _ (hshort _ (Nat.le_refl _)))
                  drop_left hpattern hitem
              · refine proceeds_of_prefix hcompatible hrest hget hbinds hvalues hspread
                  (hfits _ (hshort _ hlength)) (fun part hmem => hbefore part ?_) hstands
                rw [take_append_of_le_length hlength] at hmem
                exact mem_of_mem_take hmem

theorem proceeds_of_freeSegment (hcompatible : Compatible definition patterns subjects ρ θ)
    {op : Label} {v : Variable} (hrest : v.isRest = true) (hget : findings.subst.get? v = none)
    {later parts : List Term}
    (hstands : (findings.branch (.items op (.var v :: later) parts :: pending)).Stands patterns
      subjects ρ θ) :
    (findings.branch (.items op (.var v :: later) parts :: pending)).Proceeds definition patterns
      subjects ρ θ := by
  have haccepted : (Obligation.items op (.var v :: later) (Term.spread op θ parts)).Accepted ρ :=
    hstands.accepted _ List.mem_cons_self
  obtain ⟨run, values, hspread, hbinds, hvalues⟩ := haccepted.exists_segment hrest
  by_cases hkept : ∃ item ∈ parts.drop (parts.length + 1 - Term.needed later),
      item.isRestVar = true
  · exact .inr (.inl (.inl ⟨_, _, rfl, .kept hrest hget hkept⟩))
  · have hkept : ∀ item ∈ parts.drop (parts.length + 1 - Term.needed later),
        item.isRestVar = false := by
      simpa using hkept
    cases hlater : later.any Term.isRestVar with
    | false =>
        exact proceeds_of_last hcompatible hrest hget hlater hkept hbinds hvalues hspread hstands
    | true =>
        exact proceeds_of_earlier hcompatible hrest hget hlater hkept hbinds hvalues hspread hstands

theorem proceeds_of_items (hcompatible : Compatible definition patterns subjects ρ θ) {op : Label}
    {left parts : List Term}
    (hstands : (findings.branch (.items op left parts :: pending)).Stands patterns subjects ρ θ) :
    (findings.branch (.items op left parts :: pending)).Proceeds definition patterns subjects
      ρ θ := by
  cases left with
  | nil => exact proceeds_of_exhausted hcompatible hstands
  | cons pattern later =>
      cases hpattern : pattern.isRestVar with
      | false => exact proceeds_of_item hcompatible hpattern hstands
      | true =>
          obtain ⟨v, rfl, hrest⟩ := Term.exists_of_isRestVar hpattern
          cases hget : findings.subst.get? v with
          | none => exact proceeds_of_freeSegment hcompatible hrest hget hstands
          | some bound => exact proceeds_of_boundSegment hcompatible hrest hget hstands

end Findings

end SymbolicRewriting
