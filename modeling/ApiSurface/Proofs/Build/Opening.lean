import ApiSurface.Proofs.Outcome
import ApiSurface.Proofs.TypeRef
import ApiSurface.Registry.Build
import Mathlib.Tactic.Choose

namespace ApiSurface

def Declaration.IsApi (d : Declaration) : Prop :=
  Kind.ofDeclaration d.name d.flags = .api

namespace Slots

variable {α : Type} {ε : Type} {content : Slot → Except ε (Option α)} {s : Slots α}

theorem fill_eq_ok_iff : fill content = .ok s ↔ ∀ slot, content slot = .ok (s.get slot) := by
  constructor
  case mp =>
    intro h
    simp only [fill, Except.bind_eq_ok] at h
    obtain ⟨_, h₁, _, h₂, _, h₃, _, h₄, _, h₅, _, h₆, _, h₇, h⟩ := h
    cases h
    intro slot
    cases slot <;> assumption
  case mpr =>
    intro h
    simp only [fill, h, Except.ok_bind]
    rfl

theorem map_fill {β : Type} (f : α → β) :
    (fill content).map (map f) = fill fun slot => (content slot).map (Option.map f) := by
  simp only [fill, Except.map_bind, Except.bind_map]
  rfl

end Slots

namespace Registry

variable {R : Registry} {slotsOf slotsOf' : Declaration → Except ModelError (Slots Model)}
  {inner inner' : List String → TypeRef → Except ModelError Model} {opened : List String}
  {d : Declaration} {name : String} {args : List TypeRef} {t : TypeRef} {m : Model} {n k : Nat}

theorem buildListWith_eq_mapM (ts : List TypeRef) :
    R.buildListWith slotsOf ts = ts.mapM (R.buildWith slotsOf) := by
  induction ts
  case nil          => rfl
  case cons t ts hi =>
    rw [List.mapM_cons, ← hi]
    rfl

theorem buildNamed_congr (h : ∀ d, R.declaration? d.name = some d → slotsOf d = slotsOf' d) :
    R.buildNamed slotsOf name = R.buildNamed slotsOf' name := by
  rw [buildNamed, buildNamed]
  cases hd : R.declaration? name
  case none   => rfl
  case some d =>
    have hn := name_of_declaration? hd
    simp only [h d (hn ▸ hd)]

theorem buildWith_congr (h : ∀ d, R.declaration? d.name = some d → slotsOf d = slotsOf' d) :
    R.buildWith slotsOf t = R.buildWith slotsOf' t := by
  induction t
  case named name           => exact buildNamed_congr h
  case applied name args hi =>
    have ha : args.mapM (R.buildWith slotsOf) = args.mapM (R.buildWith slotsOf') := by
      clear h
      induction args <;> simp_all
    simp only [buildWith, buildListWith_eq_mapM, ha, buildNamed_congr h]
  all_goals rfl

-- The type that a declaration binds on a slot.
def slotType? (R : Registry) (name : String) (slot : Slot) : Option TypeRef :=
  R.resolve (.named name) slot.capability slot.index

-- The slots of an API interface, whose types `inner` models with the interface open.
def slotsInside (R : Registry) (inner : List String → TypeRef → Except ModelError Model)
    (opened : List String) (d : Declaration) : Except ModelError (Slots Model) :=
  if d.name ∈ opened then .ok .empty
  else Slots.fill fun slot =>
    match R.slotType? d.name slot with
    | none   => .ok none
    | some t => (inner (d.name :: opened) t).map some

theorem slotsInside_of_mem (h : d.name ∈ opened) : R.slotsInside inner opened d = .ok .empty :=
  if_pos h

theorem slotsInside_congr
    (h : d.name ∉ opened → ∀ t, inner (d.name :: opened) t = inner' (d.name :: opened) t) :
    R.slotsInside inner opened d = R.slotsInside inner' opened d := by
  by_cases ho : d.name ∈ opened
  case pos => rw [slotsInside_of_mem ho, slotsInside_of_mem ho]
  case neg => simp only [slotsInside, h ho]

theorem slotsInside_eq_ok_iff {slots : Slots Model} (ho : d.name ∉ opened) :
    R.slotsInside inner opened d = .ok slots
      ↔ ∀ slot, Option.Rel (fun t m => inner (d.name :: opened) t = .ok m)
        (R.slotType? d.name slot) (slots.get slot) := by
  rw [slotsInside, if_neg ho, Slots.fill_eq_ok_iff]
  apply forall_congr'
  intro slot
  cases R.slotType? d.name slot <;> cases slots.get slot <;> simp [Except.map_eq_ok]

theorem buildInside_succ :
    R.buildInside (n + 1) opened = R.buildWith (R.slotsInside (R.buildInside n) opened) :=
  rfl

-- The number of declarations that are not open.
def unopened (R : Registry) (opened : List String) : Nat :=
  R.declarations.entries.countP (·.name ∉ opened)

theorem unopened_nil : R.unopened [] = R.declarations.size := by
  simp [unopened, Catalog.size]

theorem unopened_cons_lt (hd : R.declaration? name = some d) (ho : name ∉ opened) :
    R.unopened (name :: opened) < R.unopened opened := by
  have hn : d.name = name := name_of_declaration? hd
  have ⟨before, after, he⟩ := List.append_of_mem (Catalog.mem_of_find? hd)
  have hb (ds : List Declaration) :
      ds.countP (·.name ∉ name :: opened) ≤ ds.countP (·.name ∉ opened) :=
    List.countP_mono_left fun d _ => by simp_all
  have h₁ := hb before
  have h₂ := hb after
  simp only [unopened, he, List.countP_append, List.countP_cons, hn]
  simp [ho]
  simp at h₁ h₂
  omega

-- More than one level for each declaration that is not open makes no difference.
theorem buildInside_eq (hn : R.unopened opened ≤ n) (hk : R.unopened opened ≤ k) :
    R.buildInside n opened t = R.buildInside k opened t := by
  have hz {opened} (h : R.unopened opened ≤ 0) {d} (hd : R.declaration? d.name = some d) :
      d.name ∈ opened := by
    by_contra ho
    have hl := unopened_cons_lt hd ho
    omega
  induction n generalizing k opened t <;> cases k
  case zero.zero      => rfl
  case zero.succ k    =>
    rw [buildInside_succ]
    exact buildWith_congr fun d hd => (slotsInside_of_mem <| hz hn hd).symm
  case succ.zero n hi =>
    rw [buildInside_succ]
    exact buildWith_congr fun d hd => slotsInside_of_mem <| hz hk hd
  case succ.succ n hi k =>
    rw [buildInside_succ, buildInside_succ]
    apply buildWith_congr
    intro d hd
    apply slotsInside_congr
    intro ho t
    have hl := unopened_cons_lt hd ho
    exact hi (by omega) (by omega)

-- The model of a reference inside the slots of the API interfaces `opened`.
def buildIn (R : Registry) (opened : List String) (t : TypeRef) : Except ModelError Model :=
  R.buildInside (R.unopened opened) opened t

theorem build_eq_buildIn : R.build t = R.buildIn [] t := by
  rw [build, buildIn, unopened_nil]

theorem buildIn_eq_buildWith :
    R.buildIn opened t = R.buildWith (R.slotsInside R.buildIn opened) t := by
  have he : R.buildIn opened t = R.buildInside (R.unopened opened + 1) opened t :=
    buildInside_eq (Nat.le_refl _) (Nat.le_succ _)
  rw [he, buildInside_succ]
  apply buildWith_congr
  intro d hd
  apply slotsInside_congr
  intro ho t
  exact buildInside_eq (Nat.le_of_lt <| unopened_cons_lt hd ho) (Nat.le_refl _)

section Equations

theorem buildIn_void : R.buildIn opened .void = .ok .void :=
  buildIn_eq_buildWith

theorem buildIn_primitive : R.buildIn opened (.primitive name) =
    match WellKnown.boxOf? name with
    | none       => .error (.unknownPrimitive name)
    | some boxed => .ok (.primitive name boxed) :=
  buildIn_eq_buildWith

theorem buildIn_named : R.buildIn opened (.named name)
    = R.buildNamed (R.slotsInside R.buildIn opened) name :=
  buildIn_eq_buildWith

theorem buildIn_typeVar {owner : VarOwner} :
    R.buildIn opened (.typeVar owner name) = R.buildVariable owner name :=
  buildIn_eq_buildWith

theorem buildIn_wildcard {upper lower : Option TypeRef} :
    R.buildIn opened (.wildcard upper lower)
      = .error (.unsupportedShape (.wildcard upper lower)) :=
  buildIn_eq_buildWith

theorem buildIn_array : R.buildIn opened (.array t) = .error (.unsupportedShape (.array t)) :=
  buildIn_eq_buildWith

-- The variables that an owner declares.
def declared? (R : Registry) : VarOwner → Option (ParamOwner × List String)
  | .cls cls                        => (R.declaration? cls).map fun d => (.cls cls, d.params)
  | .method declaring method params => some (.method declaring method, params)

theorem buildVariable_eq_ok_iff {owner : VarOwner} :
    R.buildVariable owner name = .ok m ↔ ∃ declared, R.declared? owner = some declared
      ∧ ∃ index, declared.2.findIdx? (· = name) = some index
        ∧ m = .typeVar ⟨declared.1, index, name⟩ := by
  cases owner
  case cls cls            =>
    cases hd : R.declaration? cls
    case none   => simp [buildVariable, declared?, hd]
    case some d =>
      simp only [buildVariable, declared?, hd, Declaration.paramIndex?, Except.ok_bind,
        Option.map_some, Option.some.injEq, exists_eq_left']
      cases d.params.findIdx? (· = name) <;> simp [eq_comm]
  case method _ _ params  =>
    simp only [buildVariable, declared?, Except.ok_bind, Option.some.injEq, exists_eq_left']
    cases params.findIdx? (· = name) <;> simp [eq_comm]

theorem buildIn_applied : R.buildIn opened (.applied name args)
    = (args.mapM (R.buildIn opened) >>= fun ms =>
        R.buildIn opened (.named name) >>= fun raw => raw.applyTo? ms) := by
  have he : R.buildIn opened = R.buildWith (R.slotsInside R.buildIn opened) :=
    funext fun t => buildIn_eq_buildWith
  rw [he]
  simp only [buildWith, buildListWith_eq_mapM]

theorem buildIn_applied_eq_ok_iff :
    R.buildIn opened (.applied name args) = .ok m
      ↔ ∃ ms, args.mapM (R.buildIn opened) = .ok ms
        ∧ ∃ raw, R.buildIn opened (.named name) = .ok raw ∧ raw.applyTo? ms = .ok m := by
  simp only [buildIn_applied, Except.bind_eq_ok]

theorem buildIn_named_unknown (h : R.declaration? name = none) :
    R.buildIn opened (.named name) = .error (.unknownDeclaration name) := by
  rw [buildIn_named, buildNamed, h]

theorem buildIn_named_api (h : R.declaration? name = some d) (hk : d.IsApi) :
    R.buildIn opened (.named name)
      = (R.slotsInside R.buildIn opened d).map (.api (R.classInfo d)) := by
  have hk : (R.classInfo d).kind = .api := hk
  rw [buildIn_named, buildNamed]
  simp only [h, hk]

-- The model of a declaration that is not an API interface.
def plainModel (R : Registry) (d : Declaration) : Model :=
  match (R.classInfo d).kind with
  | .enumeration => .enumeration (R.classInfo d) d.constants
  | .valueObject => .valueObject (R.classInfo d) d.flags.isAbstract
  | _            => .cls (R.classInfo d)

theorem buildIn_named_plain (h : R.declaration? name = some d) (hk : ¬d.IsApi) :
    R.buildIn opened (.named name) = .ok (R.plainModel d) := by
  have hk : (R.classInfo d).kind ≠ .api := hk
  rw [buildIn_named, buildNamed, plainModel]
  simp only [h]
  split <;> simp_all

-- What the model of a declaration without arguments is inside of the open API interfaces.
inductive Declares (R : Registry) (opened : List String) (name : String) : Model → Prop
  | plain {d : Declaration} : R.declaration? name = some d → ¬d.IsApi →
      Declares R opened name (R.plainModel d)
  | closed {d : Declaration} : R.declaration? name = some d → d.IsApi → name ∈ opened →
      Declares R opened name (.api (R.classInfo d) .empty)
  | api {d : Declaration} {slots : Slots Model} : R.declaration? name = some d → d.IsApi →
      name ∉ opened → (∀ slot, Option.Rel (fun t m => R.buildIn (name :: opened) t = .ok m)
        (R.slotType? name slot) (slots.get slot)) →
      Declares R opened name (.api (R.classInfo d) slots)

theorem buildIn_named_iff :
    R.buildIn opened (.named name) = .ok m ↔ R.Declares opened name m := by
  constructor
  case mp =>
    intro h
    cases hd : R.declaration? name
    case none   => simp [buildIn_named_unknown hd] at h
    case some d =>
      have hn : d.name = name := name_of_declaration? hd
      by_cases hk : d.IsApi
      case neg =>
        rw [buildIn_named_plain hd hk] at h
        cases h
        exact .plain hd hk
      case pos =>
        rw [buildIn_named_api hd hk, Except.map_eq_ok] at h
        have ⟨slots, hs, he⟩ := h
        cases he
        by_cases ho : name ∈ opened
        case pos =>
          rw [slotsInside_of_mem (hn ▸ ho)] at hs
          cases hs
          exact .closed hd hk ho
        case neg =>
          rw [slotsInside_eq_ok_iff (hn ▸ ho), hn] at hs
          exact .api hd hk ho hs
  case mpr =>
    intro h
    cases h
    case plain d hd hk           => exact buildIn_named_plain hd hk
    case closed d hd hk ho       =>
      have hn : d.name = name := name_of_declaration? hd
      simp [buildIn_named_api hd hk, slotsInside_of_mem (hn ▸ ho)]
    case api d slots hd hk ho hs =>
      have hn : d.name = name := name_of_declaration? hd
      rw [buildIn_named_api hd hk, Except.map_eq_ok]
      refine ⟨slots, ?_, rfl⟩
      rw [slotsInside_eq_ok_iff (hn ▸ ho), hn]
      exact hs

-- What the model of a reference to no declaration is.
inductive Undeclared (R : Registry) : Model → Prop
  | void : Undeclared R .void
  | primitive {name boxed : String} : WellKnown.boxOf? name = some boxed →
      Undeclared R (.primitive name boxed)
  | typeVar {owner : VarOwner} {name : String} {declared : ParamOwner × List String} {index : Nat} :
      R.declared? owner = some declared → declared.2.findIdx? (· = name) = some index →
      Undeclared R (.typeVar ⟨declared.1, index, name⟩)

theorem undeclared_of_buildIn (ht : t.declaration? = none) (h : R.buildIn opened t = .ok m) :
    R.Undeclared m := by
  cases t
  case named   => cases ht
  case applied => cases ht
  case void    =>
    rw [buildIn_void] at h
    cases h
    exact .void
  case primitive name     =>
    rw [buildIn_primitive] at h
    split at h <;> cases h
    exact .primitive ‹_›
  case typeVar owner name =>
    rw [buildIn_typeVar, buildVariable_eq_ok_iff] at h
    have ⟨declared, ho, index, hi, he⟩ := h
    exact he ▸ .typeVar ho hi
  case wildcard           =>
    rw [buildIn_wildcard] at h
    cases h
  case array              =>
    rw [buildIn_array] at h
    cases h

theorem info?_of_buildIn_named {raw : Model} (h : R.buildIn opened (.named name) = .ok raw) :
    ∃ d, R.declaration? name = some d ∧ raw.info? = some (R.classInfo d) := by
  cases buildIn_named_iff.mp h
  case plain d hd _     =>
    refine ⟨d, hd, ?_⟩
    rw [plainModel]
    split <;> rfl
  case closed d hd _ _  => exact ⟨d, hd, rfl⟩
  case api d _ hd _ _ _ => exact ⟨d, hd, rfl⟩

end Equations

-- References are modelled one after the other, and an API interface that is not open yet by
-- modelling anything with the interface open.
@[elab_as_elim]
theorem buildIn_induction (R : Registry) {motive : List String → TypeRef → Prop}
    (void      : ∀ opened, motive opened .void)
    (primitive : ∀ opened name, motive opened (.primitive name))
    (named     : ∀ opened name, (∀ d, R.declaration? name = some d → name ∉ opened → ∀ t,
      motive (name :: opened) t) → motive opened (.named name))
    (applied   : ∀ opened name args, (∀ t ∈ args, motive opened t) → motive opened (.named name) →
      motive opened (.applied name args))
    (typeVar   : ∀ opened owner name, motive opened (.typeVar owner name))
    (wildcard  : ∀ opened upper lower, motive opened (.wildcard upper lower))
    (array     : ∀ opened component, motive opened (.array component))
    (opened : List String) (t : TypeRef) : motive opened t := by
  induction hn : R.unopened opened using Nat.strongRecOn generalizing opened t
  case ind n hi =>
    have hnamed (name : String) : motive opened (.named name) :=
      named opened name fun d hd ho t => hi _ (hn ▸ unopened_cons_lt hd ho) _ t rfl
    induction t
    case void                      => exact void opened
    case primitive name            => exact primitive opened name
    case named name                => exact hnamed name
    case applied name args ha      => exact applied opened name args ha (hnamed name)
    case typeVar owner name        => exact typeVar opened owner name
    case wildcard upper lower _ _  => exact wildcard opened upper lower
    case array component _         => exact array opened component

end Registry

end ApiSurface
