import ApiSurface.Proofs.Search.Bound
import ApiSurface.Proofs.TypeRef.Names

namespace ApiSurface.Registry

-- Whether two registries differ in nothing but what they declare under one name.
structure SameBut (R S : Registry) (hidden : String) : Prop where
  declaration? : ∀ name, name ≠ hidden → R.declaration? name = S.declaration? name
  packages     : R.packages = S.packages

-- No declaration of another name has `hidden` among the names in its supertypes.
def Unmentioned (R : Registry) (hidden : String) : Prop :=
  ∀ d ∈ R.declarations.entries, d.name ≠ hidden → ∀ s ∈ d.supertypes, hidden ∉ s.names

-- No reference in a list names `hidden`.
def Clear (hidden : String) (ts : List TypeRef) : Prop :=
  ∀ t ∈ ts, hidden ∉ t.names

theorem sameBut_register (R : Registry) (d : Declaration) : R.SameBut (R.register d) d.name where
  declaration? := fun _ hn => (Catalog.find?_insert_of_ne _ hn).symm
  packages     := rfl

variable {R S : Registry} {hidden name target : String} {args : List TypeRef} {t u : TypeRef}
  {s s' : Search} {n : Nat}

-- The names that a search looks up come from the references in its queue and from supertypes.

theorem clear_of_instance? (ht : hidden ∉ t.names) (h : R.instance? t = some (name, args)) :
    name ≠ hidden ∧ Clear hidden args := by
  cases t
  case named =>
    obtain ⟨d, _, he⟩ := Option.map_eq_some_iff.mp h
    cases he
    have hn : hidden ≠ name := mt TypeRef.mem_names_named_iff.mpr ht
    refine ⟨hn.symm, fun t ht => ?_⟩
    obtain ⟨_, _, rfl⟩ := List.mem_map.mp ht
    exact mt TypeRef.mem_names_classVar_iff.mp hn
  case applied =>
    cases h
    rw [TypeRef.mem_names_applied_iff, not_or] at ht
    exact ⟨Ne.symm ht.left, fun t hm hn => ht.right ⟨t, hm, hn⟩⟩
  all_goals cases h

theorem clear_supertypes (hR : R.Unmentioned hidden) (hn : name ≠ hidden)
    (ha : Clear hidden args) : Clear hidden (R.supertypes name args) := by
  rw [supertypes]
  cases hd : R.declaration? name
  case none   => exact fun _ ht => absurd ht List.not_mem_nil
  case some d =>
    intro t ht hm
    obtain ⟨s, hs, rfl⟩ := List.mem_map.mp ht
    have hdn : d.name ≠ hidden := (name_of_declaration? hd).symm ▸ hn
    obtain hm | ⟨_, u, hu, hm⟩ := TypeRef.mem_names_of_substitute hm
    case inl => exact hR d (Catalog.mem_of_find? hd) hdn s hs hm
    case inr => exact ha u (TypeRef.mem_of_bind hu) hm

theorem clear_of_searching (hR : R.Unmentioned hidden) (hs : Clear hidden s.queue)
    (h : R.StepsTo target s (.searching s')) : Clear hidden s'.queue := by
  cases h
  case passed               => exact fun t ht => hs t (.tail _ ht)
  case expanded args hi _ _ =>
    obtain ⟨hn, ha⟩ := clear_of_instance? (hs _ (.head _)) hi
    intro t ht
    cases List.mem_append.mp ht
    case inl ht => exact hs t (.tail _ ht)
    case inr ht => exact clear_supertypes hR hn ha t ht

theorem clear_of_found (hs : Clear hidden s.queue) (h : R.StepsTo target s (.found args)) :
    Clear hidden args := by
  cases h
  case found _ hi => exact (clear_of_instance? (hs _ (.head _)) hi).right

theorem clear_of_searchWithin (hR : R.Unmentioned hidden) (hs : Clear hidden s.queue)
    (h : R.searchWithin target n s = some args) : Clear hidden args :=
  of_searchWithin (P := fun s => Clear hidden s.queue) (fun _ _ => clear_of_searching hR)
    (fun _ _ => clear_of_found) hs h

-- What a reference binds on a capability names nothing that is not named before.
theorem not_mem_names_of_resolve (hR : R.Unmentioned hidden) (ht : hidden ∉ t.names)
    {c : Capability} {index : Nat} (h : R.resolve t c index = some u) : hidden ∉ u.names := by
  obtain ⟨args, ha, hu⟩ := Option.bind_eq_some_iff.mp h
  have hs : Clear hidden [t] := List.forall_mem_singleton.mpr ht
  exact clear_of_searchWithin hR hs ha u (List.mem_of_getElem? hu)

namespace SameBut

theorem instance?_eq (h : R.SameBut S hidden) (ht : hidden ∉ t.names) :
    S.instance? t = R.instance? t := by
  cases t
  case named name =>
    have hn : hidden ≠ name := mt TypeRef.mem_names_named_iff.mpr ht
    rw [instance?, instance?, h.declaration? name hn.symm]
  all_goals rfl

theorem supertypes_eq (h : R.SameBut S hidden) (hn : name ≠ hidden) :
    S.supertypes name args = R.supertypes name args := by
  rw [supertypes, supertypes, h.declaration? name hn]

theorem searchStep_eq (h : R.SameBut S hidden) (hs : Clear hidden s.queue) :
    S.searchStep target s = R.searchStep target s := by
  obtain ⟨_ | ⟨t, queue⟩, visited⟩ := s
  case nil  => rfl
  case cons =>
    have ht : hidden ∉ t.names := hs t (.head _)
    rw [searchStep, searchStep]
    simp only [h.instance?_eq ht]
    cases hi : R.instance? t
    case none   => rfl
    case some i => simp only [h.supertypes_eq (clear_of_instance? ht hi).left]

theorem resolve_eq (h : R.SameBut S hidden) (hR : R.Unmentioned hidden) (ht : hidden ∉ t.names)
    (c : Capability) (index : Nat) : S.resolve t c index = R.resolve t c index := by
  symm
  apply resolve_congr (P := fun s => Clear hidden s.queue)
  case he => exact fun _ hs => (h.searchStep_eq hs).symm
  case hp => exact fun _ _ hs hn => clear_of_searching hR hs hn
  case hs => exact List.forall_mem_singleton.mpr ht

end SameBut

end ApiSurface.Registry
