import ApiSurface.Proofs.Build.Success
import ApiSurface.Proofs.Model.Nodes
import ApiSurface.Registry.Standard

namespace ApiSurface

namespace Model

variable {name : String} {m raw : Model} {args : List Model} {info : ClassInfo}
  {slots : Slots Model}

mutual

-- Empties the slots of the API interface of a given name, wherever it stands in a model.
def close (name : String) : Model → Model
  | api info slots   => api info (if info.name = name then .empty else closeSlots name slots)
  | applied raw args => applied (close name raw) (closeList name args)
  | m                => m
termination_by structural m => m

def closeSlots (name : String) : Slots Model → Slots Model
  | ⟨readStream, writeStream, handler, iterable, iterator, functionIn, functionOut⟩ =>
    ⟨closeSlot name readStream, closeSlot name writeStream, closeSlot name handler,
     closeSlot name iterable, closeSlot name iterator, closeSlot name functionIn,
     closeSlot name functionOut⟩
termination_by structural s => s

def closeSlot (name : String) : Option Model → Option Model
  | none   => none
  | some m => some (close name m)
termination_by structural s => s

def closeList (name : String) : List Model → List Model
  | []      => []
  | m :: ms => close name m :: closeList name ms
termination_by structural ms => ms

end

end Model

namespace Registry

open Model

variable {R : Registry} {opened opened' : List String} {name : String} {d : Declaration}
  {t : TypeRef} {m : Model} {info : ClassInfo} {slots : Slots Model}

theorem isLeaf_plainModel : (R.plainModel d).IsLeaf := by
  rw [plainModel]
  split <;> trivial

-- References to no declaration have the same model inside of all interfaces, with nothing in it.

theorem isLeaf_of_buildIn (ht : t.declaration? = none) (h : R.buildIn opened t = .ok m) :
    m.IsLeaf := by
  cases undeclared_of_buildIn ht h <;> trivial

-- What holds of every model that a reference has by itself, holds of all nodes of a model.
theorem everywhere_of_buildIn {P : Model → Prop}
    (leaf    : ∀ opened t m, t.declaration? = none → R.buildIn opened t = .ok m → P m)
    (named   : ∀ opened name m, R.buildIn opened (.named name) = .ok m → P m)
    (applied : ∀ opened name raw args m, R.buildIn opened (.named name) = .ok raw →
      raw.applyTo? args = .ok m → P m)
    (h : R.buildIn opened t = .ok m) : m.Everywhere P := by
  induction opened, t using R.buildIn_induction generalizing m
  case named opened cls hi           =>
    have hp := named opened cls m h
    cases buildIn_named_iff.mp h
    case plain d hd hk           => exact .of_leaf hp isLeaf_plainModel
    case closed d hd hk hm       => exact .of_api hp (by simp)
    case api d slots hd hk hm hs =>
      refine .of_api hp fun slot a ha => ?_
      have ⟨u, _, hu⟩ := Option.exists_left_of_rel (hs slot) ha
      exact hi d hd hm u hu
  case applied opened cls args ha hn =>
    have ⟨ms, hms, raw, hr, hm⟩ := buildIn_applied_eq_ok_iff.mp h
    have hp := applied opened cls raw ms m hr hm
    rw [(applyTo?_eq_ok_iff.mp hm).left] at hp ⊢
    exact .of_applied hp (hn hr) <| Except.forall_mem_of_mapM hms fun t ht m h => ha t ht h
  all_goals exact .of_leaf (leaf _ _ _ rfl h) (isLeaf_of_buildIn rfl h)

end Registry

end ApiSurface
