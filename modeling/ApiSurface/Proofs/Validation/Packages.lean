import ApiSurface.Model.Equality
import ApiSurface.Proofs.Build.Packages
import ApiSurface.Proofs.Validation.Relaxing
import ApiSurface.Registry.Standard

namespace ApiSurface

theorem Model.inconsistency?_eraseHomes (type : Model) :
    type.eraseHomes.inconsistency? = type.inconsistency? := by
  simp only [inconsistency?, kind_eraseHomes, isApplied_eraseHomes, args_eraseHomes,
    List.length_map, List.isEmpty_map, Inconsistency.notApplied, Inconsistency.missingKeyOrValue,
    Inconsistency.missingElement, display_eraseHomes]

theorem Rule.holdsLegal_eraseHomes (type : Model) (any : Bool) :
    holdsLegal type.eraseHomes any = holdsLegal type any := by
  simp only [holdsLegal, Model.kind_eraseHomes, Model.args_eraseHomes]
  obtain _ | ⟨_, _ | ⟨_, _⟩⟩ := type.args <;> simp

theorem Rule.accepts_eraseHomes (position : Position) (type : Model) (any : Bool) :
    accepts position type.eraseHomes any = accepts position type any := by
  have hh := holdsLegal_eraseHomes type any
  have hk := type.kind_eraseHomes
  cases type
  case void | typeVar | primitive => rfl
  all_goals
    rw [Model.eraseHomes] at hh hk ⊢
    simp only [accepts, hh, hk]

namespace Signature

def eraseHomes (s : Signature) : Signature where
  method     := s.method
  params     := s.params.map fun param => (param.1, param.2.eraseHomes)
  returnType := s.returnType.eraseHomes

-- Signatures of one method that refer to the same types, each in a registry of its own.
structure SameIn (R S : Registry) (s s' : Signature) : Prop where
  method     : s.method = s'.method
  params     : List.Forall₂ (fun param param' => param.1 = param'.1
    ∧ ∃ t, R.build t = .ok param.2 ∧ S.build t = .ok param'.2) s.params s'.params
  returnType : ∃ t, R.build t = .ok s.returnType ∧ S.build t = .ok s'.returnType

theorem SameIn.eraseHomes_eq {R S : Registry} {s s' : Signature} (h : R.Agrees S)
    (hs : s.SameIn R S s') : s.eraseHomes = s'.eraseHomes := by
  have ⟨_, hr, hr'⟩ := hs.returnType
  have hp := hs.params.imp fun param param' ⟨hn, _, ht, ht'⟩ =>
    show (param.1, param.2.eraseHomes) = (param'.1, param'.2.eraseHomes) from
      Prod.ext hn (h.eraseHomes_eq ht ht')
  rw [eraseHomes, eraseHomes, hs.method, h.eraseHomes_eq hr hr']
  congr 1
  exact List.forall₂_eq_eq_eq ▸ List.forall₂_map_left_iff.mpr (List.forall₂_map_right_iff.mpr hp)

theorem inconsistency?_eraseHomes (s : Signature) :
    s.eraseHomes.inconsistency? = s.inconsistency? := by
  rw [inconsistency?, inconsistency?]
  simp only [eraseHomes, List.findSome?_map, Function.comp_def, Model.inconsistency?_eraseHomes]

end Signature

namespace Permissions

variable {R S : Registry} {p : Permissions} {s s' : Signature}
  {signatures signatures' : List Signature}

theorem verdict_eraseHomes (method : Method) (position : Position) (type : Model)
    (notice : Notice) (args : List String) :
    p.verdict method position type.eraseHomes notice args
      = p.verdict method position type notice args := by
  rw [verdict, verdict, Rule.accepts_eraseHomes]

theorem paramOffences_eraseHomes (s : Signature) :
    p.paramOffences s.eraseHomes = p.paramOffences s := by
  rw [paramOffences, paramOffences]
  simp only [Signature.eraseHomes, List.filterMap_map, Function.comp_def, paramVerdict,
    verdict_eraseHomes, Model.display_eraseHomes, Model.kind_eraseHomes]

theorem resultOffence?_eraseHomes (s : Signature) :
    p.resultOffence? s.eraseHomes = p.resultOffence? s := by
  rw [resultOffence?, resultOffence?]
  simp only [Signature.eraseHomes, resultVerdict, verdict_eraseHomes, Model.display_eraseHomes,
    Model.kind_eraseHomes]

theorem validate_eraseHomes (s : Signature) : p.validate s.eraseHomes = p.validate s := by
  rw [validate_eq, validate_eq, Signature.inconsistency?_eraseHomes, paramOffences_eraseHomes,
    resultOffence?_eraseHomes]

theorem validate_sameIn (h : R.Agrees S) (hs : s.SameIn R S s') :
    p.validate s = p.validate s' := by
  rw [← validate_eraseHomes s, hs.eraseHomes_eq h, validate_eraseHomes]

theorem report_sameIn (h : R.Agrees S) (hs : s.SameIn R S s') : p.report s = p.report s' := by
  rw [report, report, validate_sameIn h hs, hs.method]

theorem reportAll_sameIn (h : R.Agrees S)
    (hs : List.Forall₂ (Signature.SameIn R S) signatures signatures') :
    p.reportAll signatures = p.reportAll signatures' := by
  induction hs
  case nil           => rfl
  case cons hs _ hi =>
    rw [reportAll, reportAll, List.flatMap_cons, List.flatMap_cons, report_sameIn h hs]
    exact congrArg _ hi

end Permissions

namespace Registry

variable {R S : Registry}

-- Where registries agree but for packages, the same references have models, and these are the same
-- but for modules. The others fail in the same way. What is reported is the same, too.
theorem Agrees.indifferent (h : R.Agrees S) :
    (∀ t, (R.build t).map Model.eraseHomes = (S.build t).map Model.eraseHomes)
    ∧ (∀ (p : Permissions) (s s' : Signature), s.SameIn R S s' → p.validate s = p.validate s')
    ∧ ∀ (p : Permissions) (signatures signatures' : List Signature),
        List.Forall₂ (Signature.SameIn R S) signatures signatures' →
        p.reportAll signatures = p.reportAll signatures' :=
  ⟨h.build_eq, fun _ _ _ => Permissions.validate_sameIn h,
    fun _ _ _ => Permissions.reportAll_sameIn h⟩

-- An enumeration that is moved to another package, where no package is registered. It loses its
-- module, and a list of lists of it is refused with the same text.
theorem Agrees.indifferent_color :
    let color : Declaration :=
      { name := "com.acme.model.Color", flags := { enumeration := true }
        constants := ["RED", "GREEN", "BLUE"] }
    let list : Declaration := { name := WellKnown.list, params := ["E"] }
    let described : Registry :=
      { declarations := .ofList [list, color], packages := .ofList samplePackages }
    let moved : Registry :=
      { declarations := .ofList [list, { color with packageName := "elsewhere" }] }
    let lists (m : Model) : Model :=
      let list := Model.cls ⟨.list, WellKnown.list, none, [⟨.cls WellKnown.list, 0, "E"⟩]⟩
      .applied list [.applied list [m]]
    let t : TypeRef := .applied WellKnown.list [.applied WellKnown.list [.named color.name]]
    let m := lists (.enumeration
      ⟨.enumeration, color.name, some ⟨"com.acme", "acme", "com.acme"⟩, []⟩ color.constants)
    let n := lists (.enumeration ⟨.enumeration, color.name, none, []⟩ color.constants)
    let method : Method := { owner := "com.acme.api.Widget", name := "send" }
    let found := Diagnostic.ofNotice "com.acme.api.Widget#send" .illegalParameter
      ["java.util.List<java.util.List<com.acme.model.Color>>", "LIST", "colors", "send"]
    let p : Permissions := {}
    described.Agrees moved ∧ described.build t = .ok m ∧ moved.build t = .ok n
    ∧ m.eraseHomes = n.eraseHomes
    ∧ p.validate ⟨method, [("colors", m)], .void⟩ = .ok [found]
    ∧ p.validate ⟨method, [("colors", n)], .void⟩ = .ok [found]
    ∧ p.reportAll [⟨method, [("colors", n)], .void⟩] = [found] := by
  intro color list described moved lists t m n method found p
  have ha : described.Agrees moved := by
    intro name
    by_cases hn : name = color.name
    case pos => subst hn; rfl
    case neg =>
      have hd : described.declaration? name = _ := Catalog.find?_insert_of_ne _ hn
      have hm : moved.declaration? name = _ := Catalog.find?_insert_of_ne _ hn
      rw [hd, hm]
  have hm : described.build t = .ok m := by decide +kernel
  have hn : moved.build t = .ok n := by decide +kernel
  have hv (S : Registry) : S.build .void = .ok .void := build_eq_buildIn.trans buildIn_void
  have hs : Signature.SameIn described moved ⟨method, [("colors", m)], .void⟩
      ⟨method, [("colors", n)], .void⟩ := {
    method     := rfl
    params     := .cons ⟨rfl, t, hm, hn⟩ .nil
    returnType := ⟨.void, hv described, hv moved⟩ }
  have hf : p.validate ⟨method, [("colors", m)], .void⟩ = .ok [found] := by decide +kernel
  have hr : p.reportAll [⟨method, [("colors", m)], .void⟩] = [found] := by
    simp only [Permissions.reportAll, Permissions.report, List.flatMap_cons, hf, List.flatMap_nil,
      List.append_nil]
  obtain ⟨hb, hp, hl⟩ := ha.indifferent
  have he : m.eraseHomes = n.eraseHomes := by
    have hb := hb t
    rw [hm, hn] at hb
    exact Except.ok.inj hb
  exact ⟨ha, hm, hn, he, hf, hp p _ _ hs ▸ hf, hl p _ _ (.cons hs .nil) ▸ hr⟩

end Registry

end ApiSurface
