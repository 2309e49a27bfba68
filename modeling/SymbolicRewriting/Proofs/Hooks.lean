import SymbolicRewriting.Definition.Basic

/-!
Laws of hooks. Hooks come with a definition from outside, and nothing keeps one from telling equal
terms apart or from answering with a call that it leaves to somebody else. A result that depends on
more names the laws that it needs, and the standard hooks keep all of them.
-/

namespace SymbolicRewriting

open List

theorem Signature.mem_of_mem_declare {signature other : Signature} {signatures : List Signature}
    (hmem : other ∈ signature.declare signatures) : other = signature ∨ other ∈ signatures := by
  induction signatures with
  | nil => exact .inl (mem_singleton.1 hmem)
  | cons earlier rest ih =>
      unfold declare at hmem
      split at hmem
      · exact (mem_cons.1 hmem).imp_right (mem_cons_of_mem earlier)
      · rcases mem_cons.1 hmem with rfl | hmem
        · exact .inr mem_cons_self
        · exact (ih hmem).imp_right (mem_cons_of_mem earlier)

theorem Signature.mem_of_mem_foldl_declare {signature : Signature}
    {signatures earlier : List Signature}
    (hmem : signature ∈ signatures.foldl (fun earlier signature => signature.declare earlier) earlier) :
    signature ∈ signatures ∨ signature ∈ earlier := by
  induction signatures generalizing earlier with
  | nil => exact .inr hmem
  | cons declared signatures ih =>
      rcases ih hmem with hlater | hearlier
      · exact .inl (mem_cons_of_mem declared hlater)
      · rcases mem_of_mem_declare hearlier with rfl | hearlier
        · exact .inl mem_cons_self
        · exact .inr hearlier

namespace Definition

variable {definition : Definition} {declarations : List Declaration} {law : Hook → Prop}

def EveryHook (definition : Definition) (law : Hook → Prop) : Prop :=
  ∀ label hook, definition.hook? label = some hook → law hook

/-- The definition has no hooks but standard ones. -/
def OnlyBuiltins (definition : Definition) : Prop :=
  definition.EveryHook fun hook => ∃ builtin : Builtin, hook = builtin.hook

theorem OnlyBuiltins.everyHook (honly : definition.OnlyBuiltins)
    (hlaw : ∀ builtin : Builtin, law builtin.hook) : definition.EveryHook law := by
  intro label hook hhook
  obtain ⟨builtin, rfl⟩ := honly label hook hhook
  exact hlaw builtin

theorem everyHook_assemble
    (hlaw : ∀ hook ∈ (Declaration.signatures declarations).filterMap Signature.hook?, law hook) :
    (assemble declarations).EveryHook law := by
  intro label hook hhook
  obtain ⟨signature, hsignature, hkind⟩ := Option.bind_eq_some_iff.1 hhook
  rcases Signature.mem_of_mem_foldl_declare (mem_of_find?_eq_some hsignature) with hmem | hmem
  · exact hlaw hook (mem_filterMap.2 ⟨signature, hmem, hkind⟩)
  · cases hmem

theorem onlyBuiltins_assemble (builtins : List Builtin)
    (hhooks : (Declaration.signatures declarations).filterMap Signature.hook? =
      builtins.map Builtin.hook) : (assemble declarations).OnlyBuiltins := by
  refine everyHook_assemble fun hook hmem => ?_
  rw [hhooks] at hmem
  obtain ⟨builtin, -, rfl⟩ := mem_map.1 hmem
  exact ⟨builtin, rfl⟩

end Definition

end SymbolicRewriting
