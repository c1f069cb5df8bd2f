import ApiSurface.Proofs.Build.Closing

namespace ApiSurface

namespace Registry

-- What is known of a class is what its declaration says.
structure Describes (R : Registry) (d : Declaration) (info : ClassInfo) : Prop where
  declared : R.declaration? info.name = some d
  kind     : info.kind = Kind.ofDeclaration info.name d.flags
  home     : info.home = R.moduleOf d.packageName
  params   : ∀ i : Nat, info.params[i]? = d.params[i]?.map fun name => ⟨.cls info.name, i, name⟩

-- The form of a class is the one for its kind, with what its declaration has for that form.
structure Presents (R : Registry) (d : Declaration) (info : ClassInfo) (m : Model) : Prop
    extends R.Describes d info where
  enumeration : m = .enumeration info d.constants ↔ info.kind = .enumeration
  api         : (∃ slots, m = .api info slots) ↔ info.kind = .api
  valueObject : m = .valueObject info d.flags.isAbstract ↔ info.kind = .valueObject
  cls         : m = .cls info ↔ info.kind ∉ [.enumeration, .api, .valueObject]

-- What a node has to satisfy by itself. Type arguments are those of a class, which has none of its
-- own and declares as many.
def Consistent (R : Registry) : Model → Prop
  | .void                 => True
  | .primitive name boxed => WellKnown.boxOf? name = some boxed
  | .typeVar param        => ∀ cls, param.owner = .cls cls →
    ∃ d, R.declaration? cls = some d ∧ d.params[param.index]? = some param.name
  | .applied raw args     => raw.isClass ∧ ∃ info, raw.info? = some info
    ∧ 0 < args.length ∧ args.length = info.params.length
  | m                     => ∃ d info, m.info? = some info ∧ R.Presents d info m

variable {R : Registry} {opened : List String} {d : Declaration} {name : String} {t : TypeRef}
  {m raw : Model} {info : ClassInfo} {slots : Slots Model}

theorem describes_classInfo (hd : R.declaration? name = some d) :
    R.Describes d (R.classInfo d) := by
  obtain rfl : d.name = name := name_of_declaration? hd
  exact {
    declared := hd
    kind     := rfl
    home     := rfl
    params   := fun i => by rw [classInfo, List.getElem?_mapIdx] }

theorem presents_api (hd : R.declaration? name = some d) (hk : d.IsApi) :
    R.Presents d (R.classInfo d) (.api (R.classInfo d) slots) := by
  have hk : (R.classInfo d).kind = .api := hk
  exact {
    toDescribes := describes_classInfo hd
    enumeration := by simp [hk]
    api         := by simp [hk]
    valueObject := by simp [hk]
    cls         := by simp [hk] }

theorem presents_plainModel (hd : R.declaration? name = some d) (hk : ¬d.IsApi) :
    R.Presents d (R.classInfo d) (R.plainModel d) := by
  have hk : (R.classInfo d).kind ≠ .api := hk
  rw [plainModel]
  split
  all_goals exact {
    toDescribes := describes_classInfo hd
    enumeration := by simp_all
    api         := by simp_all
    valueObject := by simp_all
    cls         := by simp_all }

theorem consistent_iff_of_isClass (h : m.isClass) :
    R.Consistent m ↔ ∃ d info, m.info? = some info ∧ R.Presents d info m := by
  cases m
  case cls | api | valueObject | enumeration => rfl
  all_goals contradiction

theorem kind_eq_of_consistent (hm : m.isClass) (hc : R.Consistent m) (hi : m.info? = some info) :
    m.kind = info.kind := by
  have ⟨d, info', hi', hp⟩ := (consistent_iff_of_isClass hm).mp hc
  obtain ⟨_, he, ha, hv, hc⟩ := hp
  cases m
  case cls | api | valueObject | enumeration =>
    cases hi
    cases hi'
    simp_all [Model.kind]
  all_goals contradiction

theorem consistent_of_undeclared (h : R.Undeclared m) : R.Consistent m := by
  cases h
  case void            => trivial
  case primitive hb    => exact hb
  case typeVar owner name declared index ho hi =>
    intro cls hc
    cases owner
    case method => cases ho; cases hc
    case cls    =>
      obtain ⟨d, hd, rfl⟩ := Option.map_eq_some_iff.mp ho
      cases hc
      have ⟨hl, hx, _⟩ := List.findIdx?_eq_some_iff_getElem.mp hi
      exact ⟨d, hd, by simpa [hl] using hx⟩

-- A class without arguments.
theorem consistent_of_buildIn_named (h : R.buildIn opened (.named name) = .ok m) :
    m.isClass ∧ R.Consistent m := by
  cases buildIn_named_iff.mp h
  case plain d hd hk         =>
    have hc : (R.plainModel d).isClass ∧ (R.plainModel d).info? = some (R.classInfo d) := by
      rw [plainModel]
      split <;> exact ⟨rfl, rfl⟩
    exact ⟨hc.left, (consistent_iff_of_isClass hc.left).mpr
      ⟨d, _, hc.right, presents_plainModel hd hk⟩⟩
  case closed d hd hk _      => exact ⟨rfl, d, _, rfl, presents_api hd hk⟩
  case api d slots hd hk _ _ => exact ⟨rfl, d, _, rfl, presents_api hd hk⟩

-- All nodes of a model agree with the registry, and have the kinds of their classes.
theorem build_consistent (h : R.build t = .ok m) :
    m.Everywhere fun n => R.Consistent n ∧ ∀ info, n.info? = some info → n.kind = info.kind := by
  rw [build_eq_buildIn] at h
  refine everywhere_of_buildIn ?leaf ?named ?applied h
  case leaf    =>
    intro opened t m ht h
    have hu := undeclared_of_buildIn ht h
    exact ⟨consistent_of_undeclared hu, fun info hi => by cases hu <;> cases hi⟩
  case named   =>
    intro opened name m h
    have ⟨hm, hc⟩ := consistent_of_buildIn_named h
    exact ⟨hc, fun info hi => kind_eq_of_consistent hm hc hi⟩
  case applied =>
    intro opened name raw args m hr h
    have ⟨hm, hc⟩ := consistent_of_buildIn_named hr
    obtain ⟨rfl, info, hi, hn, hl⟩ := Model.applyTo?_eq_ok_iff.mp h
    refine ⟨⟨hm, info, hi, List.length_pos_iff.mpr hn, hl⟩, fun info hi => ?_⟩
    have hk : raw.kind = info.kind := kind_eq_of_consistent hm hc hi
    exact hk

-- A stream of enumeration constants, whose interface has its own parameter in two slots.
theorem build_consistent_pipe :
    let home : Option ModuleRef := some ⟨"com.acme", "acme", "com.acme"⟩
    let elem : TypeParam := ⟨.cls "com.acme.api.Pipe", 0, "T"⟩
    let slots : Slots Model :=
      { readStream := some (.typeVar elem), writeStream := some (.typeVar elem) }
    let color := Model.enumeration ⟨.enumeration, "com.acme.model.Color", home, []⟩
      ["RED", "GREEN", "BLUE"]
    let m := Model.applied (.api ⟨.api, "com.acme.api.Pipe", home, [elem]⟩ slots) [color]
    sample.build (.applied "com.acme.api.Pipe" [.named "com.acme.model.Color"]) = .ok m
      ∧ m.Everywhere fun n =>
        sample.Consistent n ∧ ∀ info, n.info? = some info → n.kind = info.kind := by
  intro home elem slots color m
  have hb : sample.build (.applied "com.acme.api.Pipe" [.named "com.acme.model.Color"])
      = .ok m := by rfl
  exact ⟨hb, build_consistent hb⟩

end Registry

end ApiSurface
