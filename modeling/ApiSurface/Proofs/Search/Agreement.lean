import ApiSurface.Proofs.Search.Bound

namespace ApiSurface

-- A declaration without the package that it is in.
def Declaration.unpackaged (d : Declaration) : Declaration :=
  { d with packageName := "" }

theorem Declaration.eq_of_unpackaged {d d' : Declaration} (h : d.unpackaged = d'.unpackaged) :
    d' = { d with packageName := d'.packageName } := by
  obtain ⟨_, _, _, _, _, _⟩ := d
  obtain ⟨_, _, _, _, _, _⟩ := d'
  cases h
  rfl

namespace Registry

-- Whether two registries have the same declarations, but for their packages. Which packages are
-- registered is of no importance.
def Agrees (R S : Registry) : Prop :=
  ∀ name, (R.declaration? name).map Declaration.unpackaged
    = (S.declaration? name).map Declaration.unpackaged

variable {R S : Registry} {name target : String} {args : List TypeRef} {t : TypeRef} {s : Search}

namespace Agrees

theorem map_eq {α : Type} (h : R.Agrees S) {f : Declaration → α}
    (hf : ∀ d, f d.unpackaged = f d) :
    (R.declaration? name).map f = (S.declaration? name).map f := by
  have hc : f ∘ Declaration.unpackaged = f := funext hf
  rw [← hc, ← Option.map_map, ← Option.map_map, h name]

theorem declaration?_none (h : R.Agrees S) (hd : R.declaration? name = none) :
    S.declaration? name = none := by
  have hn := h name
  rw [hd, Option.map_none] at hn
  exact Option.map_eq_none_iff.mp hn.symm

theorem declaration?_some {d : Declaration} (h : R.Agrees S) (hd : R.declaration? name = some d) :
    ∃ packageName, S.declaration? name = some { d with packageName } := by
  have hn := h name
  rw [hd, Option.map_some] at hn
  obtain ⟨d', hd', he⟩ := Option.map_eq_some_iff.mp hn.symm
  exact ⟨d'.packageName, Declaration.eq_of_unpackaged he.symm ▸ hd'⟩

theorem instance?_eq (h : R.Agrees S) : R.instance? t = S.instance? t := by
  cases t
  case named name => exact h.map_eq fun _ => rfl
  all_goals rfl

theorem supertypes_eq (h : R.Agrees S) : R.supertypes name args = S.supertypes name args := by
  rw [supertypes, supertypes]
  cases hd : R.declaration? name
  case none   => rw [h.declaration?_none hd]
  case some d =>
    obtain ⟨_, hd'⟩ := h.declaration?_some hd
    rw [hd']

theorem searchStep_eq (h : R.Agrees S) : R.searchStep target s = S.searchStep target s := by
  simp only [searchStep, h.instance?_eq, h.supertypes_eq]

theorem resolve_eq (h : R.Agrees S) (c : Capability) (index : Nat) :
    R.resolve t c index = S.resolve t c index :=
  resolve_congr (P := fun _ => True) index (fun _ _ => h.searchStep_eq) (fun _ _ _ _ => trivial)
    trivial

end Agrees

end Registry

end ApiSurface
