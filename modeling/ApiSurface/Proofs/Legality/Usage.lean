import ApiSurface.Legality.Rule
import ApiSurface.Proofs.Outcome

namespace ApiSurface

namespace Model

-- What is wrong with a model that is judged: it is a container without the arguments to look at.
def inconsistency? (type : Model) : Option Inconsistency :=
  if !type.kind.isContainer then none
  else if !type.isApplied then some (.notApplied type)
  else if type.kind = .map then
    if type.args.length < 2 then some (.missingKeyOrValue type) else none
  else if type.args.isEmpty then some (.missingElement type)
  else none

-- What can be told of a model without looking into it or at its kind.
inductive Form where
  | void
  | typeVar
  | applied
  | plain
deriving DecidableEq

def form : Model → Form
  | void        => .void
  | typeVar _   => .typeVar
  | applied _ _ => .applied
  | _           => .plain

variable {type : Model}

theorem form_ne_void (h : type ≠ void) : type.form ≠ .void := by
  cases type
  case void => exact absurd rfl h
  all_goals exact Form.noConfusion

theorem form_ne_typeVar (h : type.kind ≠ .other) : type.form ≠ .typeVar := by
  cases type
  case typeVar => exact absurd rfl h
  all_goals exact Form.noConfusion

end Model

namespace Rule

-- The elements that are legal in a list or set.
def isElement (k : Kind) (any : Bool) : Bool :=
  isArgument k any || k = .valueObject || k = .enumeration

-- Whether a container holds what it may hold.
def holdsLegal (type : Model) (any : Bool) : Bool :=
  if type.kind = .map then
    match type.args with
    | key :: value :: _ => key.kind = .string && isArgument value.kind any
    | _                 => false
  else if type.kind.isContainer then
    match type.args with
    | element :: _ => isElement element.kind any
    | []           => false
  else false

-- Whether a type that is not inconsistent may be used at a position.
def accepts (position : Position) (type : Model) (any : Bool) : Bool :=
  match type with
  | .void      => position = .result
  | .typeVar _ => true
  | _          => isElement type.kind any || holdsLegal type any

variable {k : Kind} {any any' : Bool} {position : Position} {method : Method} {type : Model}

theorem not_isContainer_of_isElement (h : isElement k any) : ¬k.isContainer := by
  cases k <;> cases any <;> revert h <;> decide

theorem inconsistency?_of_isElement (h : isElement type.kind any) :
    type.inconsistency? = none := by
  simp [Model.inconsistency?, not_isContainer_of_isElement h]

theorem argument_eq_ok :
    (argument method type any : Except Inconsistency Bool) = .ok (isArgument type.kind any) :=
  rfl

theorem valueObject_eq_ok :
    (valueObject method type any : Except Inconsistency Bool)
      = .ok (type.kind = .valueObject) :=
  rfl

-- The checks that lists and sets make on an element.
theorem element_eq :
    (argument method type any <||> valueObject method type false
        <||> .ok (type.kind = .enumeration) : Except Inconsistency Bool)
      = .ok (isElement type.kind any) := by
  rw [argument_eq_ok, valueObject_eq_ok, isElement]
  cases isArgument type.kind any <;> by_cases hv : type.kind = .valueObject <;> simp [hv]

-- The same checks, before what stands behind them.
theorem element_orElse_eq (x : Except Inconsistency Bool) :
    (argument method type any <||> valueObject method type false
        <||> .ok (type.kind = .enumeration) <||> x)
      = if isElement type.kind any then .ok true else x := by
  rw [argument_eq_ok, valueObject_eq_ok, isElement]
  cases isArgument type.kind any <;> by_cases hv : type.kind = .valueObject <;> simp [hv]

theorem container_eq_of_map {raw : Model} {args : List Model} (h : raw.kind = .map) :
    (container argument valueObject method (.applied raw args) any : Except Inconsistency Bool)
      = Except.unlessError (Model.applied raw args).inconsistency?
          (holdsLegal (.applied raw args) any) := by
  have hm : (Model.applied raw args).kind = .map := h
  have hk : Kind.map.isContainer = true := rfl
  match args with
  | [] | [_] => simp [container, Model.inconsistency?, Model.isApplied, Model.args, hm, hk]
  | key :: value :: rest =>
    have hl : ¬rest.length + 1 + 1 < 2 := by omega
    by_cases hs : key.kind = .string <;>
      simp [container, Model.inconsistency?, Model.isApplied, Model.args, holdsLegal, hm, hk, hs,
        hl, argument_eq_ok]

theorem container_eq_of_collection {raw : Model} {args : List Model}
    (h : (Model.applied raw args).kind.isContainer) (hm : (Model.applied raw args).kind ≠ .map) :
    (container argument valueObject method (.applied raw args) any : Except Inconsistency Bool)
      = Except.unlessError (Model.applied raw args).inconsistency?
          (holdsLegal (.applied raw args) any) := by
  match args with
  | []           => simp [container, Model.inconsistency?, Model.isApplied, Model.args, hm, h]
  | element :: _ =>
    simp [container, Model.inconsistency?, Model.isApplied, Model.args, holdsLegal, hm, h,
      element_eq]

theorem container_eq :
    (container argument valueObject method type any : Except Inconsistency Bool)
      = Except.unlessError type.inconsistency? (holdsLegal type any) := by
  by_cases hc : type.kind.isContainer
  case neg =>
    have hm : type.kind ≠ .map := fun h => hc (h ▸ rfl)
    simp [container, Model.inconsistency?, holdsLegal, hc, hm]
  case pos =>
    cases type
    case applied raw args =>
      by_cases hm : raw.kind = .map
      case pos => exact container_eq_of_map hm
      case neg => exact container_eq_of_collection hc hm
    all_goals simp [container, Model.inconsistency?, Model.isApplied, hc]

-- A type that passes as an element is no container, so nothing is wrong with it.
theorem usage_eq :
    (usage position method type any : Except Inconsistency Bool)
      = Except.unlessError type.inconsistency? (accepts position type any) := by
  cases type
  case void | typeVar => rfl
  all_goals
    simp only [usage, accepts, Except.pure_eq_ok, element_orElse_eq, container_eq]
    split
    case isTrue he  => rw [inconsistency?_of_isElement he, he]; rfl
    case isFalse he => simp [he]

theorem inconsistency?_of_args (h : type.kind = .map → 2 ≤ type.args.length)
    (ha : 0 < type.args.length) : type.inconsistency? = none := by
  have hp : type.isApplied := by
    cases type
    case applied => rfl
    all_goals exact absurd ha (Nat.lt_irrefl 0)
  have hn : ¬type.args.isEmpty := by
    rw [List.isEmpty_iff]
    exact List.length_pos_iff.mp ha
  rw [Model.inconsistency?, hp, Bool.not_true, if_neg Bool.false_ne_true]
  by_cases hm : type.kind = .map
  case pos => rw [if_pos hm, if_neg (Nat.not_lt_of_le (h hm)), ite_self]
  case neg => rw [if_neg hm, if_neg hn, ite_self]

-- Only `void` and type variables are accepted, or not, for their form.
theorem accepts_eq (hv : type.form ≠ .void) (ht : type.form ≠ .typeVar) :
    accepts position type any = (isElement type.kind any || holdsLegal type any) := by
  cases type
  case void    => exact absurd rfl hv
  case typeVar => exact absurd rfl ht
  all_goals rfl

theorem accepts_eq_holdsLegal (h : type.kind.isContainer) :
    accepts position type any = holdsLegal type any := by
  have hv : type ≠ .void := fun he => by rw [he] at h; contradiction
  have ht : type.kind ≠ .other := fun he => by rw [he] at h; contradiction
  have he : isElement type.kind any = false :=
    Bool.eq_false_iff.mpr fun he => not_isContainer_of_isElement he h
  rw [accepts_eq (Model.form_ne_void hv) (Model.form_ne_typeVar ht), he, Bool.false_or]

theorem holdsLegal_of_not_isContainer (h : ¬type.kind.isContainer) :
    holdsLegal type any = false := by
  have hm : type.kind ≠ .map := fun hm => h (hm ▸ rfl)
  rw [holdsLegal, if_neg hm, if_neg h]

theorem holdsLegal_element {element : Model} (hk : type.kind = .list ∨ type.kind = .set)
    (he : type.args[0]? = some element) : holdsLegal type any = isElement element.kind any := by
  obtain ⟨rest, hr⟩ : ∃ rest, type.args = element :: rest := by
    cases ha : type.args <;> simp_all
  have hm : type.kind ≠ .map := fun hm => by simp [hm] at hk
  have hc : type.kind.isContainer := by obtain hk | hk := hk <;> rw [hk] <;> rfl
  rw [holdsLegal, if_neg hm, if_pos hc, hr]

theorem holdsLegal_value {value : Model} (any : Bool) (hk : type.kind = .map)
    (hv : type.args[1]? = some value) : ∃ key, type.args[0]? = some key
      ∧ holdsLegal type any = (key.kind = .string && isArgument value.kind any) := by
  obtain ⟨key, rest, hr⟩ : ∃ key rest, type.args = key :: value :: rest := by
    cases ha : type.args
    case nil           => simp [ha] at hv
    case cons key rest => cases rest <;> simp_all
  rw [holdsLegal, if_pos hk, hr]
  exact ⟨key, rfl, rfl⟩

theorem isArgument_mono (h : any → any') : isArgument k any → isArgument k any' := by
  simp only [isArgument, Bool.or_eq_true, Bool.and_eq_true]
  exact Or.imp_right (And.imp_left h)

theorem isElement_mono (h : any → any') : isElement k any → isElement k any' := by
  simp only [isElement, Bool.or_eq_true]
  exact Or.imp_left (Or.imp_left (isArgument_mono h))

theorem holdsLegal_mono (h : any → any') : holdsLegal type any → holdsLegal type any' := by
  simp only [holdsLegal]
  repeat' split
  case h_1    => simpa using fun hk hv => ⟨hk, isArgument_mono h hv⟩
  case h_1    => exact isElement_mono h
  all_goals exact id

theorem accepts_mono (h : any → any') : accepts position type any → accepts position type any' := by
  cases type
  case void | typeVar => exact id
  all_goals
    simp only [accepts, Bool.or_eq_true]
    exact Or.imp (isElement_mono h) (holdsLegal_mono h)

end Rule

end ApiSurface
