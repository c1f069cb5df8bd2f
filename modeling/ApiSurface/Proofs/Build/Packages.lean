import ApiSurface.Proofs.Build.Correspondence
import ApiSurface.Proofs.Model.Homes
import ApiSurface.Proofs.Search.Agreement

namespace ApiSurface.Registry.Agrees

open Model (eraseHomes)

variable {R S : Registry} {t : TypeRef} {m n : Model}

theorem eraseHome_classInfo (R S : Registry) (d : Declaration) (packageName : String) :
    (S.classInfo { d with packageName }).eraseHome = (R.classInfo d).eraseHome :=
  rfl

theorem eraseHomes_plainModel (R S : Registry) (d : Declaration) (packageName : String) :
    (S.plainModel { d with packageName }).eraseHomes = (R.plainModel d).eraseHomes := by
  have hi := eraseHome_classInfo R S d packageName
  have hk : (S.classInfo { d with packageName }).kind = (R.classInfo d).kind := rfl
  rw [plainModel, plainModel, hk]
  split <;> simp only [eraseHomes, hi]

theorem resembles (R S : Registry) (d : Declaration) (packageName : String) :
    Resembles eraseHomes R S d { d with packageName } where
  isApi := Iff.rfl
  plain := (eraseHomes_plainModel R S d packageName).symm
  api   := fun slots slots' hs => by
    rw [Model.eraseHomes_api, Model.eraseHomes_api, hs, eraseHome_classInfo R S]

theorem corresponds (h : R.Agrees S) : Corresponds (fun _ => True) eraseHomes R S where
  applyTo?      := fun _ _ => Model.applyTo?_eraseHomes
  raw           := fun _ _ _ => trivial
  arg           := fun _ _ _ _ _ => trivial
  slot          := fun _ _ _ _ _ => trivial
  slotType?     := fun _ _ => funext fun _ => h.resolve_eq ..
  buildVariable := fun _ _ _ => buildVariable_congr fun _ _ => h.map_eq fun _ => rfl
  declaration?  := by
    intro name _
    cases hd : R.declaration? name
    case none   =>
      rw [h.declaration?_none hd]
      exact .none
    case some d =>
      have ⟨packageName, hd'⟩ := h.declaration?_some hd
      rw [hd']
      exact .some (resembles R S d packageName)

theorem build_eq (h : R.Agrees S) (t : TypeRef) :
    (R.build t).map eraseHomes = (S.build t).map eraseHomes :=
  h.corresponds.build_eq trivial

theorem eraseHomes_eq (h : R.Agrees S) (hm : R.build t = .ok m) (hn : S.build t = .ok n) :
    m.eraseHomes = n.eraseHomes := by
  have he := h.build_eq t
  rw [hm, hn] at he
  exact Except.ok.inj he

end ApiSurface.Registry.Agrees
