import ApiSurface.Proofs.Build.Correspondence
import ApiSurface.Proofs.Search.Unmentioned
import ApiSurface.Registry.Standard

namespace ApiSurface.Registry

namespace SameBut

variable {R S : Registry} {hidden name : String} {t : TypeRef}

theorem firstModule_eq (h : R.SameBut S hidden) (names : List String) :
    S.firstModule names = R.firstModule names := by
  induction names
  case nil             => rfl
  case cons name names hi =>
    rw [firstModule, firstModule, hi, package?, package?, h.packages]

theorem classInfo_eq (h : R.SameBut S hidden) (d : Declaration) :
    S.classInfo d = R.classInfo d := by
  rw [classInfo, classInfo, moduleOf, moduleOf, h.firstModule_eq]

theorem plainModel_eq (h : R.SameBut S hidden) (d : Declaration) :
    S.plainModel d = R.plainModel d := by
  rw [plainModel, plainModel, h.classInfo_eq]

theorem buildVariable_eq (h : R.SameBut S hidden) {owner : VarOwner}
    (ht : hidden ∉ (TypeRef.typeVar owner name).names) :
    R.buildVariable owner name = S.buildVariable owner name := by
  apply buildVariable_congr
  rintro cls rfl
  have hn : hidden ≠ cls := mt TypeRef.mem_names_classVar_iff.mpr ht
  rw [h.declaration? cls hn.symm]

theorem resembles (h : R.SameBut S hidden) (d : Declaration) : Resembles id R S d d where
  isApi := Iff.rfl
  plain := (h.plainModel_eq d).symm
  api   := by
    intro slots slots' hs
    rw [Slots.map_id, Slots.map_id] at hs
    rw [hs, h.classInfo_eq]

-- The types of the slots do not name the declaration either.
theorem corresponds (h : R.SameBut S hidden) (hR : R.Unmentioned hidden) :
    Corresponds (hidden ∉ ·.names) id R S where
  applyTo?      := fun raw args => by rw [List.map_id, Except.map_id]; rfl
  raw           := fun _ _ ht hx =>
    ht <| TypeRef.mem_names_applied_iff.mpr <| .inl <| TypeRef.mem_names_named_iff.mp hx
  arg           := fun _ _ ht t hm hx => ht <| TypeRef.mem_names_applied_iff.mpr <| .inr ⟨t, hm, hx⟩
  slot          := fun _ hn _ _ ht => not_mem_names_of_resolve hR hn ht
  slotType?     := fun _ hn => funext fun _ => (h.resolve_eq hR hn ..).symm
  buildVariable := fun _ _ => h.buildVariable_eq
  declaration?  := by
    intro name hn
    rw [h.declaration? name fun he => hn (TypeRef.mem_names_named_iff.mpr he.symm)]
    cases S.declaration? name
    case none   => exact .none
    case some d => exact .some (h.resembles d)

theorem build_eq (h : R.SameBut S hidden) (hR : R.Unmentioned hidden) (ht : hidden ∉ t.names) :
    S.build t = R.build t := by
  have he := (h.corresponds hR).build_eq ht
  rw [Except.map_id] at he
  exact he.symm

end SameBut

-- A declaration is registered, in the place of another of its name or as a new one, which neither
-- the reference nor a supertype of any other class names. The reference has the same model as
-- before, or fails as before, and binds the same types on the capabilities.
theorem register_unmentioned {R : Registry} {d : Declaration} {t : TypeRef}
    (hR : R.Unmentioned d.name) (ht : d.name ∉ t.names) :
    (R.register d).build t = R.build t
    ∧ ∀ c index, (R.register d).resolve t c index = R.resolve t c index := by
  have h := sameBut_register R d
  exact ⟨h.build_eq hR ht, h.resolve_eq hR ht⟩

-- A class becomes an API interface that handles strings. A stream of chains is modelled as before.
theorem register_unmentioned_opaque :
    let d : Declaration :=
      { name := "com.acme.internal.Opaque", flags := { api := true }
        supertypes := [.applied WellKnown.handler [.named WellKnown.string]] }
    let t := TypeRef.applied "com.acme.api.Pipe" [.named "com.acme.api.Chain"]
    sample.Unmentioned d.name ∧ d.name ∉ t.names
    ∧ (sample.declaration? d.name).isSome ∧ sample.declaration? d.name ≠ some d
    ∧ (sample.build t).isOk ∧ (sample.register d).build t = sample.build t
    ∧ sample.resolve t .readStream 0 = some (.named "com.acme.api.Chain")
    ∧ (sample.register d).resolve t .readStream 0 = some (.named "com.acme.api.Chain") := by
  intro d t
  have hR : sample.Unmentioned d.name := by
    unfold Unmentioned
    decide +kernel
  have ht : d.name ∉ t.names := by decide
  have hr : sample.resolve t .readStream 0 = some (.named "com.acme.api.Chain") := by
    decide +kernel
  obtain ⟨hb, hc⟩ := register_unmentioned hR ht
  exact ⟨hR, ht, by decide +kernel, by decide +kernel, by decide +kernel, hb, hr,
    (hc .readStream 0).trans hr⟩

end ApiSurface.Registry
