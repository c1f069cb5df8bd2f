import ApiSurface.Proofs.Dotted
import ApiSurface.Registry
import Mathlib.Logic.Relation
import Mathlib.Tactic.Tauto

namespace ApiSurface

open Dotted (IsParent parent?)
open Relation (ReflTransGen)

namespace Dotted

-- `IsAncestor above name` means that `above` is `name`, or is left of it when it is cut at its last
-- dot again and again.
def IsAncestor (above name : String) : Prop :=
  ReflTransGen (fun name above => IsParent above name) name above

variable {above name ancestor : String}

theorem isAncestor_iff (h : IsParent above name) :
    IsAncestor ancestor name ↔ ancestor = name ∨ IsAncestor ancestor above := by
  constructor
  case mp  =>
    intro ha
    obtain rfl | ⟨_, hp, ha⟩ := ReflTransGen.cases_head ha
    case inl => exact .inl rfl
    case inr => exact .inr (Option.some.inj (h.parent?_eq.symm.trans hp.parent?_eq) ▸ ha)
  case mpr =>
    rintro (rfl | ha)
    case inl => exact .refl
    case inr => exact .head h ha

theorem eq_of_isAncestor_root (h : parent? name = none) (ha : IsAncestor ancestor name) :
    ancestor = name := by
  obtain rfl | ⟨_, hp, _⟩ := ReflTransGen.cases_head ha
  case inl => rfl
  case inr => cases h.symm.trans hp.parent?_eq

theorem IsAncestor.count_le (h : IsAncestor ancestor name) :
    ancestor.toList.count '.' ≤ name.toList.count '.' := by
  induction h
  case refl       => exact Nat.le_refl _
  case tail hp hi => exact Nat.le_trans (hp.count_eq ▸ Nat.le_succ _) hi

theorem IsAncestor.antisymm (h : IsAncestor ancestor name) (h' : IsAncestor name ancestor) :
    ancestor = name := by
  obtain rfl | ⟨above, hp, ha⟩ := ReflTransGen.cases_head h
  case inl => rfl
  case inr =>
    have hc := Nat.le_trans h'.count_le (IsAncestor.count_le ha)
    rw [hp.count_eq] at hc
    exact absurd hc (Nat.not_succ_le_self _)

end Dotted

open Dotted (IsAncestor)

-- `Nearest registered name home` means that `home` is described by a package that `name` can be cut
-- to, while `name` and all packages before that one are registered without a description.
structure Nearest (registered : Package → Prop) (name : String) (home : ModuleRef) : Prop where
  ancestor  : IsAncestor home.packageName name
  described : registered ⟨home.packageName, some ⟨home.name, home.groupPackage⟩⟩
  bare      : ∀ between, IsAncestor between name → IsAncestor home.packageName between →
    between ≠ home.packageName → registered ⟨between, none⟩

-- `Latest packages p` means that `p` is the last package of its name.
def Latest (packages : List Package) (p : Package) : Prop :=
  ∃ before after, packages = before ++ p :: after ∧ ∀ other ∈ after, other.name ≠ p.name

theorem latest_cons_iff {packages : List Package} {p q : Package} :
    Latest (q :: packages) p
      ↔ p = q ∧ (∀ other ∈ packages, other.name ≠ p.name) ∨ Latest packages p := by
  constructor
  case mp  =>
    rintro ⟨before, after, he, hn⟩
    cases before
    case nil               => cases he; exact .inl ⟨rfl, hn⟩
    case cons first before => cases he; exact .inr ⟨before, after, rfl, hn⟩
  case mpr =>
    rintro (⟨rfl, hn⟩ | ⟨before, after, rfl, hn⟩)
    case inl => exact ⟨[], packages, rfl, hn⟩
    case inr => exact ⟨q :: before, after, rfl, hn⟩

namespace Registry

-- Whether a package is registered as it is.
def Holds (R : Registry) (p : Package) : Prop :=
  R.package? p.name = some p

-- `Walks R name k home?` means that the walk upwards from `name` looks up `k` packages and ends
-- with `home?`.
inductive Walks (R : Registry) : String → Nat → Option ModuleRef → Prop
  | unregistered {name} : R.package? name = none → Walks R name 1 none
  | described {name p d} : R.package? name = some p → p.header = some d →
      Walks R name 1 (some ⟨p.name, d.name, d.groupPackage⟩)
  | root {name p} : R.package? name = some p → p.header = none → parent? p.name = none →
      Walks R name 1 none
  | up {name p above k home?} : R.package? name = some p → p.header = none →
      parent? p.name = some above → Walks R above k home? → Walks R name (k + 1) home?

variable {R : Registry} {p q : Package} {packages : List Package} {name above : String} {k : Nat}
  {home : ModuleRef} {home? : Option ModuleRef}

theorem isParent_of_package? (h : R.package? name = some p) (hp : parent? p.name = some above) :
    IsParent above name :=
  Dotted.parent?_eq_some_iff.mp (name_of_package? h ▸ hp)

theorem eq_of_package? (h : R.package? name = some p) : p = ⟨name, p.header⟩ := by
  rw [← name_of_package? h]

-- A walk has an end from wherever it starts.
theorem exists_walks (R : Registry) (name : String) : ∃ k home?, R.Walks name k home? := by
  induction hn : name.toList.count '.' using Nat.strongRecOn generalizing name
  case ind n hi =>
    cases hp : R.package? name
    case none   => exact ⟨_, _, .unregistered hp⟩
    case some p =>
      cases hh : p.header
      case some d => exact ⟨_, _, .described hp hh⟩
      case none   =>
        cases hr : parent? p.name
        case none       => exact ⟨_, _, .root hp hh hr⟩
        case some above =>
          have hc := (isParent_of_package? hp hr).count_eq
          obtain ⟨k, home?, hw⟩ := hi _ (hn ▸ hc ▸ Nat.lt_succ_self _) above rfl
          exact ⟨_, _, .up hp hh hr hw⟩

theorem package?_bare (h : R.package? name = some p) (hh : p.header = none) :
    R.package? name = some ⟨name, none⟩ := by
  rw [h, eq_of_package? h, hh]

-- A package that a module is found for has the description itself, or it has none.
theorem package?_of_nearest (h : Nearest R.Holds name home) :
    home.packageName = name ∧ R.package? name = some ⟨name, some ⟨home.name, home.groupPackage⟩⟩
      ∨ R.package? name = some ⟨name, none⟩ := by
  by_cases hn : name = home.packageName
  case pos => exact .inl ⟨hn.symm, hn ▸ h.described⟩
  case neg => exact .inr (h.bare name .refl h.ancestor hn)

theorem not_nearest_of_unregistered (hp : R.package? name = none) :
    ¬Nearest R.Holds name home := by
  intro h
  obtain ⟨_, hr⟩ | hr := package?_of_nearest h
  all_goals cases hp.symm.trans hr

theorem nearest_iff_of_header {d : ModuleHeader} (hp : R.package? name = some p)
    (hd : p.header = some d) :
    Nearest R.Holds name home ↔ home = ⟨p.name, d.name, d.groupPackage⟩ := by
  have hs : R.package? name = some ⟨name, some d⟩ := by rw [hp, eq_of_package? hp, hd]
  rw [name_of_package? hp]
  constructor
  case mp  =>
    intro h
    obtain ⟨rfl, hr⟩ | hr := package?_of_nearest h
    case inl => cases hs.symm.trans hr; rfl
    case inr => cases hs.symm.trans hr
  case mpr =>
    rintro rfl
    exact ⟨.refl, hs, fun between hb ha hn => absurd (hb.antisymm ha) hn⟩

theorem not_nearest_of_root (hp : R.package? name = some ⟨name, none⟩) (hr : parent? name = none) :
    ¬Nearest R.Holds name home := by
  intro h
  have hd := h.described
  rw [Dotted.eq_of_isAncestor_root hr h.ancestor] at hd
  cases hp.symm.trans hd

theorem nearest_iff_of_parent (hp : R.package? name = some ⟨name, none⟩)
    (hr : IsParent above name) : Nearest R.Holds name home ↔ Nearest R.Holds above home := by
  constructor
  case mp  =>
    intro h
    obtain ha | ha := (Dotted.isAncestor_iff hr).mp h.ancestor
    case inl =>
      have hd := h.described
      rw [ha] at hd
      cases hp.symm.trans hd
    case inr =>
      exact ⟨ha, h.described, fun between hb => h.bare between (.head hr hb)⟩
  case mpr =>
    intro h
    refine ⟨.head hr h.ancestor, h.described, fun between hb ha hn => ?_⟩
    obtain rfl | hb := (Dotted.isAncestor_iff hr).mp hb
    case inl => exact hp
    case inr => exact h.bare between hb ha hn

namespace Walks

theorem le_count (h : R.Walks name k home?) : k ≤ 1 + name.toList.count '.' := by
  induction h
  case up hp _ hr _ hi =>
    rw [(isParent_of_package? hp hr).count_eq]
    exact Nat.succ_le_succ hi
  all_goals exact Nat.le_add_right ..

theorem moduleOf_eq (h : R.Walks name k home?) : R.moduleOf name = home? := by
  induction h
  case unregistered hp  => rw [moduleOf, Dotted.lineage, firstModule, hp]
  case described hp hd  =>
    rw [moduleOf, Dotted.lineage, firstModule, hp]
    simp only [hd]
  case root hp hh hr    =>
    rw [name_of_package? hp] at hr
    rw [moduleOf, Dotted.lineage_of_root hr, firstModule, hp]
    simp only [hh]
    rfl
  case up hp hh hr _ hi =>
    rw [moduleOf, (isParent_of_package? hp hr).lineage_eq, firstModule, hp]
    simp only [hh]
    exact hi

theorem eq_some_iff (h : R.Walks name k home?) :
    home? = some home ↔ Nearest R.Holds name home := by
  induction h
  case unregistered hp  => exact iff_of_false nofun (not_nearest_of_unregistered hp)
  case described hp hd  => rw [nearest_iff_of_header hp hd, Option.some_inj, eq_comm]
  case root hp hh hr    =>
    have hr := name_of_package? hp ▸ hr
    exact iff_of_false nofun (not_nearest_of_root (package?_bare hp hh) hr)
  case up hp hh hr _ hi =>
    rw [nearest_iff_of_parent (package?_bare hp hh) (isParent_of_package? hp hr), hi]

end Walks

theorem holds_registerPackage :
    (R.registerPackage q).Holds p ↔ p = q ∨ p.name ≠ q.name ∧ R.Holds p := by
  rw [Holds, package?, registerPackage]
  by_cases hn : p.name = q.name
  case pos =>
    rw [hn, Catalog.find?_insert_self]
    simp [eq_comm]
  case neg =>
    have hq : p ≠ q := fun h => hn (congrArg Package.name h)
    rw [Catalog.find?_insert_of_ne _ hn]
    simp [hn, hq, Holds, package?]

-- Of a sequence of packages the last one of each name gets registered, and what was registered
-- before stays if there is none of its name among them.
theorem holds_foldl_registerPackage :
    (packages.foldl registerPackage R).Holds p
      ↔ Latest packages p ∨ R.Holds p ∧ ∀ other ∈ packages, other.name ≠ p.name := by
  induction packages generalizing R
  case nil                => simp [Latest]
  case cons q packages hi =>
    rw [List.foldl_cons, hi, holds_registerPackage, latest_cons_iff, List.forall_mem_cons,
      ne_comm (a := p.name)]
    tauto

theorem holds_registered (declarations : Catalog Declaration.name) (packages : List Package) :
    (packages.foldl registerPackage { declarations }).Holds = Latest packages := by
  funext p
  have hn : ¬Holds { declarations } p := nofun
  rw [holds_foldl_registerPackage, eq_iff_iff]
  tauto

-- For all packages that are registered one after another, the module of a package is that of the
-- nearest ancestor with a description, over ancestors that are all registered. Every walk upwards
-- ends with it.
theorem moduleOf_nearest (declarations : Catalog Declaration.name) (packages : List Package)
    (name : String) :
    let R := packages.foldl registerPackage { declarations }
    (∀ home, R.moduleOf name = some home ↔ Nearest (Latest packages) name home)
    ∧ (R.moduleOf name = none ↔ ∀ home, ¬Nearest (Latest packages) name home)
    ∧ (∃ k home?, R.Walks name k home?)
    ∧ ∀ k home?, R.Walks name k home? →
        k ≤ 1 + name.toList.count '.' ∧ R.moduleOf name = home? := by
  intro R
  obtain ⟨_, _, hw⟩ := exists_walks R name
  have hn (home : ModuleRef) :
      R.moduleOf name = some home ↔ Nearest (Latest packages) name home := by
    rw [hw.moduleOf_eq, hw.eq_some_iff, holds_registered]
  refine ⟨hn, ?_, ⟨_, _, hw⟩, fun k home? h => ⟨h.le_count, h.moduleOf_eq⟩⟩
  simp only [← hn, Option.eq_none_iff_forall_ne_some, ne_eq]

-- A name with an empty segment. The package above it is registered twice, the second time with a
-- description. A package that is not registered hides it from the packages below.
theorem moduleOf_nearest_dots :
    let packages : List Package :=
      [{ name := "a" }, { name := "a." }, { name := "a..b" },
        { name := "a", header := some { name := "core", groupPackage := "org" } }]
    let R := packages.foldl registerPackage { declarations := .empty }
    let home : ModuleRef := { packageName := "a", name := "core", groupPackage := "org" }
    R.Walks "a..b" 3 (some home) ∧ 3 ≤ 1 + "a..b".toList.count '.'
    ∧ Nearest (Latest packages) "a..b" home
    ∧ ∀ home, ¬Nearest (Latest packages) "a..b.c.d" home := by
  intro packages R home
  have h₁ : R.Walks "a" 1 (some home) :=
    .described (p := ⟨"a", some ⟨"core", "org"⟩⟩) (d := ⟨"core", "org"⟩) rfl rfl
  have h₂ : R.Walks "a." 2 (some home) := .up rfl rfl rfl h₁
  have hw : R.Walks "a..b" 3 (some home) := .up rfl rfl rfl h₂
  obtain ⟨hn, _, _, hk⟩ := moduleOf_nearest .empty packages "a..b"
  obtain ⟨hle, hm⟩ := hk _ _ hw
  exact ⟨hw, hle, (hn home).mp hm, (moduleOf_nearest .empty packages "a..b.c.d").right.left.mp rfl⟩

end Registry

end ApiSurface
