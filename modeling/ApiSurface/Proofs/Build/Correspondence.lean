import ApiSurface.Proofs.Build.Opening

namespace ApiSurface.Registry

-- Two declarations whose models are the same to `f`, if what is in their slots is.
structure Resembles (f : Model → Model) (R S : Registry) (d d' : Declaration) : Prop where
  isApi : d.IsApi ↔ d'.IsApi
  plain : f (R.plainModel d) = f (S.plainModel d')
  api   : ∀ slots slots', Slots.map f slots = Slots.map f slots' →
    f (.api (R.classInfo d) slots) = f (.api (S.classInfo d') slots')

theorem Resembles.map_api {f : Model → Model} {R S : Registry} {d d' : Declaration}
    {x y : Except ModelError (Slots Model)} (h : Resembles f R S d d')
    (hs : x.map (Slots.map f) = y.map (Slots.map f)) :
    (x.map (.api (R.classInfo d))).map f = (y.map (.api (S.classInfo d'))).map f := by
  cases x <;> cases y
  case error.error => exact congrArg Except.error (Except.error.inj hs)
  case error.ok    => cases hs
  case ok.error    => cases hs
  case ok.ok a b   => exact congrArg Except.ok (h.api a b (Except.ok.inj hs))

-- Two registries in which the references that satisfy `P` are modelled from the same parts, which
-- satisfy `P` in turn. `f` is what is looked at in a model, and has to leave alone whether a model
-- takes type arguments.
structure Corresponds (P : TypeRef → Prop) (f : Model → Model) (R S : Registry) : Prop where
  applyTo?      : ∀ raw args, (f raw).applyTo? (args.map f) = (raw.applyTo? args).map f
  raw           : ∀ name args, P (.applied name args) → P (.named name)
  arg           : ∀ name args, P (.applied name args) → ∀ t ∈ args, P t
  slot          : ∀ name, P (.named name) → ∀ slot t, R.slotType? name slot = some t → P t
  slotType?     : ∀ name, P (.named name) → R.slotType? name = S.slotType? name
  buildVariable : ∀ owner name, P (.typeVar owner name) →
    R.buildVariable owner name = S.buildVariable owner name
  declaration?  : ∀ name, P (.named name) →
    Option.Rel (Resembles f R S) (R.declaration? name) (S.declaration? name)

-- All that matters for a variable are the parameters of the class that declares it.
theorem buildVariable_congr {R S : Registry} {owner : VarOwner} {name : String}
    (h : ∀ cls, owner = .cls cls →
      (R.declaration? cls).map (·.params) = (S.declaration? cls).map (·.params)) :
    R.buildVariable owner name = S.buildVariable owner name := by
  cases owner
  case method  => rfl
  case cls cls =>
    have hp := h cls rfl
    rw [buildVariable, buildVariable]
    generalize R.declaration? cls = d at hp
    generalize S.declaration? cls = d' at hp
    cases d <;> cases d'
    case none.none      => rfl
    case none.some      => cases hp
    case some.none      => cases hp
    case some.some d d' =>
      have hp : d.params = d'.params := Option.some.inj hp
      simp only [Declaration.paramIndex?, hp]

namespace Corresponds

variable {P : TypeRef → Prop} {f : Model → Model} {R S : Registry} {opened : List String}
  {name : String} {args : List TypeRef} {d d' : Declaration} {t : TypeRef}

-- An interface gets the same slots, if what is in them is the same.
theorem slotsInside_eq (h : Corresponds P f R S) (hn : d'.name = d.name) (hd : P (.named d.name))
    (hi : d.name ∉ opened → ∀ t, P t → (R.buildIn (d.name :: opened) t).map f
      = (S.buildIn (d.name :: opened) t).map f) :
    (R.slotsInside R.buildIn opened d).map (Slots.map f)
      = (S.slotsInside S.buildIn opened d').map (Slots.map f) := by
  by_cases ho : d.name ∈ opened
  case pos => rw [slotsInside_of_mem ho, slotsInside_of_mem (hn ▸ ho)]
  case neg =>
    rw [slotsInside, slotsInside, hn, if_neg ho, if_neg ho, Slots.map_fill, Slots.map_fill]
    congr 1
    funext slot
    rw [← h.slotType? d.name hd]
    cases ht : R.slotType? d.name slot
    case none   => rfl
    case some t =>
      have hm (x : Except ModelError Model) :
          (x.map some).map (Option.map f) = (x.map f).map some := by
        cases x <;> rfl
      simp only [hm, hi ho t (h.slot d.name hd slot t ht)]

theorem buildIn_named_eq (h : Corresponds P f R S) (hn : P (.named name))
    (hi : ∀ d, R.declaration? name = some d → name ∉ opened → ∀ t, P t →
      (R.buildIn (name :: opened) t).map f = (S.buildIn (name :: opened) t).map f) :
    (R.buildIn opened (.named name)).map f = (S.buildIn opened (.named name)).map f := by
  have hr := h.declaration? name hn
  cases hd : R.declaration? name <;> cases hd' : S.declaration? name <;> rw [hd, hd'] at hr <;>
    cases hr
  case none.none      => rw [buildIn_named_unknown hd, buildIn_named_unknown hd']
  case some.some d d' ha =>
    obtain rfl : d.name = name := name_of_declaration? hd
    by_cases hk : d.IsApi
    case neg =>
      rw [buildIn_named_plain hd hk, buildIn_named_plain hd' (mt ha.isApi.mpr hk), Except.ok_map,
        Except.ok_map, ha.plain]
    case pos =>
      rw [buildIn_named_api hd hk, buildIn_named_api hd' (ha.isApi.mp hk)]
      exact ha.map_api (h.slotsInside_eq (name_of_declaration? hd') hn (hi d hd))

theorem map_buildIn_applied (h : Corresponds P f R S) (T : Registry) :
    (T.buildIn opened (.applied name args)).map f
      = (args.mapM (fun t => (T.buildIn opened t).map f) >>= fun ms =>
          (T.buildIn opened (.named name)).map f >>= fun raw => raw.applyTo? ms) := by
  simp only [buildIn_applied, ← Except.map_mapM, Except.bind_map, Except.map_bind, h.applyTo?]

-- The step is the same for each form of reference, also inside of the slots of open interfaces.
theorem buildIn_eq (h : Corresponds P f R S) (ht : P t) :
    (R.buildIn opened t).map f = (S.buildIn opened t).map f := by
  induction opened, t using R.buildIn_induction
  case void                      => rw [buildIn_void, buildIn_void]
  case primitive                 => rw [buildIn_primitive, buildIn_primitive]
  case named opened name hi      => exact h.buildIn_named_eq ht hi
  case applied opened name args ha hn =>
    have hm := Except.mapM_congr fun t hm => ha t hm (h.arg name args ht t hm)
    rw [h.map_buildIn_applied, h.map_buildIn_applied, hm, hn (h.raw name args ht)]
  case typeVar opened owner name =>
    rw [buildIn_typeVar, buildIn_typeVar, h.buildVariable owner name ht]
  case wildcard                  => rw [buildIn_wildcard, buildIn_wildcard]
  case array                     => rw [buildIn_array, buildIn_array]

theorem build_eq (h : Corresponds P f R S) (ht : P t) : (R.build t).map f = (S.build t).map f := by
  rw [build_eq_buildIn, build_eq_buildIn, h.buildIn_eq ht]

end Corresponds

end ApiSurface.Registry
