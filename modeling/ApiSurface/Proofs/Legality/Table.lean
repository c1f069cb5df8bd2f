import ApiSurface.Proofs.Legality.Usage
import ApiSurface.Proofs.Model.Layers

namespace ApiSurface

-- The kinds that are legal at any position whatever is allowed.
def Kind.isModelled (k : Kind) : Bool :=
  k.isBasic || k = .api || k = .valueObject || k = .enumeration

namespace Rule

-- The table. Each row says for which types it is and what the answer for them is.
inductive Row (position : Position) (any : Bool) : Model → Except Inconsistency Bool → Prop
  | void : Row position any .void (.ok (position = .result))
  | typeVar {param} : Row position any (.typeVar param) (.ok true)
  | modelled {type} : type.kind.isModelled → Row position any type (.ok true)
  | unmodelled {type} : type.form ≠ .void → type.form ≠ .typeVar → ¬type.kind.isModelled →
      ¬type.kind.isContainer → Row position any type (.ok any)
  | collection {raw element rest} : raw.kind = .list ∨ raw.kind = .set →
      Row position any (.applied raw (element :: rest))
        (.ok (element.kind.isModelled || any && !element.kind.isContainer))
  | map {raw key value rest} : raw.kind = .map →
      Row position any (.applied raw (key :: value :: rest))
        (.ok (key.kind = .string
          && (value.kind.isBasic || value.kind = .api || any && !value.kind.isContainer)))
  | notApplied {type} : type.kind.isContainer → type.form ≠ .applied →
      Row position any type (.error (.notApplied type))
  | missingKeyOrValue {raw args} : raw.kind = .map → args.length < 2 →
      Row position any (.applied raw args) (.error (.missingKeyOrValue (.applied raw args)))
  | missingElement {raw} : raw.kind = .list ∨ raw.kind = .set →
      Row position any (.applied raw []) (.error (.missingElement (.applied raw [])))

variable {k : Kind} {any : Bool} {position : Position} {method : Method} {type type' : Model}
  {x : Except Inconsistency Bool}

theorem isElement_eq : isElement k any = (k.isModelled || any && !k.isContainer) := by
  cases k <;> cases any <;> rfl

theorem not_isContainer_of_isModelled (h : k.isModelled) : ¬k.isContainer := by
  revert h
  cases k <;> decide

theorem isContainer_iff : k.isContainer ↔ k = .list ∨ k = .set ∨ k = .map := by
  cases k <;> decide

theorem isApplied_iff : type.isApplied ↔ type.form = .applied := by
  cases type
  case applied => exact iff_of_true rfl rfl
  all_goals exact iff_of_false Bool.false_ne_true Model.Form.noConfusion

theorem accepts_of_void (h : type.form = .void) :
    accepts position type any = decide (position = .result) := by
  cases type
  case void => rfl
  all_goals contradiction

theorem accepts_of_typeVar (h : type.form = .typeVar) : accepts position type any = true := by
  cases type
  case typeVar => rfl
  all_goals contradiction

theorem usage_eq_of_isElement (hv : type.form ≠ .void) (ht : type.form ≠ .typeVar)
    (hc : ¬type.kind.isContainer) :
    (usage position method type any : Except Inconsistency Bool)
      = .ok (isElement type.kind any) := by
  have hi : type.inconsistency? = none := by simp [Model.inconsistency?, hc]
  rw [usage_eq, hi, accepts_eq hv ht, holdsLegal_of_not_isContainer hc, Bool.or_false,
    Except.unlessError_none]

theorem usage_eq_holdsLegal (hc : type.kind.isContainer) :
    (usage position method type any : Except Inconsistency Bool)
      = Except.unlessError type.inconsistency? (holdsLegal type any) := by
  rw [usage_eq, accepts_eq_holdsLegal hc]

theorem inconsistency?_notApplied (hc : type.kind.isContainer) (hf : type.form ≠ .applied) :
    type.inconsistency? = some (.notApplied type) := by
  have ha : type.isApplied = false := Bool.eq_false_iff.mpr (mt isApplied_iff.mp hf)
  simp [Model.inconsistency?, hc, ha]

theorem inconsistency?_missingKeyOrValue (hm : type.kind = .map) (hf : type.form = .applied)
    (hl : type.args.length < 2) : type.inconsistency? = some (.missingKeyOrValue type) := by
  simp [Model.inconsistency?, hm, Kind.isContainer, isApplied_iff.mpr hf, hl]

theorem inconsistency?_missingElement (hk : type.kind = .list ∨ type.kind = .set)
    (hf : type.form = .applied) (ha : type.args = []) :
    type.inconsistency? = some (.missingElement type) := by
  obtain hk | hk := hk <;>
    simp [Model.inconsistency?, hk, Kind.isContainer, isApplied_iff.mpr hf, ha]

-- Each row is what the rule answers.
theorem usage_of_row (h : Row position any type x) : usage position method type any = x := by
  cases h
  case void    => rfl
  case typeVar => rfl
  case modelled hm =>
    have hv : type.form ≠ .void :=
      Model.form_ne_void fun he => by rw [he] at hm; contradiction
    have ht : type.form ≠ .typeVar :=
      Model.form_ne_typeVar fun he => by rw [he] at hm; contradiction
    have hc : ¬type.kind.isContainer := not_isContainer_of_isModelled hm
    rw [usage_eq_of_isElement hv ht hc, isElement_eq, hm, Bool.true_or]
  case unmodelled hv ht hm hc =>
    rw [usage_eq_of_isElement hv ht hc, isElement_eq]
    simp [hm, hc]
  case collection raw element rest hk =>
    let type : Model := .applied raw (element :: rest)
    have hk : type.kind = .list ∨ type.kind = .set := hk
    have hc : type.kind.isContainer := isContainer_iff.mpr (hk.imp_right .inl)
    have hi : type.inconsistency? = none :=
      inconsistency?_of_args (fun hm => by simp [hm] at hk) (Nat.succ_pos _)
    rw [usage_eq_holdsLegal hc, hi, holdsLegal_element hk rfl, isElement_eq,
      Except.unlessError_none]
  case map raw key value rest hk =>
    let type : Model := .applied raw (key :: value :: rest)
    have hk : type.kind = .map := hk
    have hc : type.kind.isContainer := isContainer_iff.mpr (.inr (.inr hk))
    have hl : 2 ≤ type.args.length := Nat.succ_le_succ (Nat.succ_pos _)
    have hi : type.inconsistency? = none :=
      inconsistency?_of_args (fun _ => hl) (Nat.zero_lt_of_lt hl)
    obtain ⟨_, ⟨⟩, hh⟩ := holdsLegal_value any hk rfl
    rw [usage_eq_holdsLegal hc, hi, hh, isArgument, Except.unlessError_none]
  case notApplied hc hf =>
    rw [usage_eq_holdsLegal hc, inconsistency?_notApplied hc hf, Except.unlessError_some]
  case missingKeyOrValue raw args hk hl =>
    have hk : (Model.applied raw args).kind = .map := hk
    have hc : (Model.applied raw args).kind.isContainer := isContainer_iff.mpr (.inr (.inr hk))
    rw [usage_eq_holdsLegal hc, inconsistency?_missingKeyOrValue hk rfl hl,
      Except.unlessError_some]
  case missingElement raw hk =>
    have hk : (Model.applied raw []).kind = .list ∨ (Model.applied raw []).kind = .set := hk
    have hc : (Model.applied raw []).kind.isContainer := isContainer_iff.mpr (hk.imp_right .inl)
    rw [usage_eq_holdsLegal hc, inconsistency?_missingElement hk rfl rfl, Except.unlessError_some]

-- There is a row for every type.
theorem exists_row (position : Position) (any : Bool) (type : Model) :
    ∃ x, Row position any type x := by
  by_cases hc : type.kind.isContainer
  case neg =>
    by_cases hm : type.kind.isModelled
    case pos => exact ⟨_, .modelled hm⟩
    case neg =>
      cases type
      case void    => exact ⟨_, .void⟩
      case typeVar => exact ⟨_, .typeVar⟩
      all_goals exact ⟨_, .unmodelled Model.Form.noConfusion Model.Form.noConfusion hm hc⟩
  case pos =>
    cases type
    case applied raw args =>
      obtain hk | hk | hk := isContainer_iff.mp hc
      case inr.inr =>
        match args with
        | []                => exact ⟨_, .missingKeyOrValue hk Nat.two_pos⟩
        | [_]               => exact ⟨_, .missingKeyOrValue hk (Nat.lt_succ_self 1)⟩
        | key :: value :: _ => exact ⟨_, .map hk⟩
      all_goals
        cases args
        case nil  => exact ⟨_, .missingElement (by simp_all [Model.kind])⟩
        case cons => exact ⟨_, .collection (by simp_all [Model.kind])⟩
    all_goals exact ⟨_, .notApplied hc Model.Form.noConfusion⟩

theorem usage_eq_iff_row : usage position method type any = x ↔ Row position any type x := by
  constructor
  case mp  =>
    intro h
    obtain ⟨y, hy⟩ := exists_row position any type
    exact h ▸ (usage_of_row hy).symm ▸ hy
  case mpr => exact usage_of_row

-- A list or set that has arguments has an element, so only what is no container in form, or a map
-- without a key or value, is wrong.
theorem usage_eq_error_iff (hs : type.Saturated) :
    (∃ e, (usage position method type any : Except Inconsistency Bool) = .error e)
      ↔ type.kind.isContainer ∧ type.form ≠ .applied ∨ type.kind = .map ∧ type.args.length < 2 := by
  constructor
  case mp =>
    intro ⟨e, h⟩
    cases usage_eq_iff_row.mp h
    case notApplied hc hf        => exact .inl ⟨hc, hf⟩
    case missingKeyOrValue hk hl => exact .inr ⟨hk, hl⟩
    case missingElement          =>
      obtain ⟨_, _, hp, _⟩ := hs
      exact absurd hp (Nat.lt_irrefl 0)
  case mpr =>
    rintro (⟨hc, hf⟩ | ⟨hk, hl⟩)
    case inl => exact ⟨_, usage_of_row (.notApplied hc hf)⟩
    case inr =>
      cases type
      case applied => exact ⟨_, usage_of_row (.missingKeyOrValue hk hl)⟩
      all_goals
        have hc := isContainer_iff.mpr (.inr (.inr hk))
        exact ⟨_, usage_of_row (.notApplied hc Model.Form.noConfusion)⟩

-- Types that agree in all that the table looks at.
structure Resembles (type type' : Model) : Prop where
  form : type.form = type'.form
  kind : type.kind = type'.kind
  args : type.args.map Model.kind = type'.args.map Model.kind

namespace Resembles

theorem reason_eq (h : Resembles type type') :
    type.inconsistency?.map (·.reason) = type'.inconsistency?.map (·.reason) := by
  have ha : type.isApplied = type'.isApplied :=
    Bool.eq_iff_iff.mpr (by rw [isApplied_iff, isApplied_iff, h.form])
  have hl : type.args.length = type'.args.length := by
    simpa using congrArg List.length h.args
  have he : type.args.isEmpty = type'.args.isEmpty := by
    simpa using congrArg List.isEmpty h.args
  simp only [Model.inconsistency?, h.kind, hl, ha, he]
  repeat' split
  all_goals rfl

theorem holdsLegal_eq (h : Resembles type type') : holdsLegal type any = holdsLegal type' any := by
  have ha := h.args
  rw [holdsLegal, holdsLegal, h.kind]
  generalize type.args = as at ha
  generalize type'.args = bs at ha
  obtain _ | ⟨a, _ | ⟨b, as⟩⟩ := as <;> obtain _ | ⟨a', _ | ⟨b', bs⟩⟩ := bs <;> simp_all

theorem accepts_eq (h : Resembles type type') :
    accepts position type any = accepts position type' any := by
  by_cases hv : type.form = .void
  case pos => rw [accepts_of_void hv, accepts_of_void (h.form ▸ hv)]
  case neg =>
    by_cases ht : type.form = .typeVar
    case pos => rw [accepts_of_typeVar ht, accepts_of_typeVar (h.form ▸ ht)]
    case neg =>
      rw [Rule.accepts_eq hv ht, Rule.accepts_eq (h.form ▸ hv) (h.form ▸ ht), h.kind,
        h.holdsLegal_eq]

theorem usage_eq (h : Resembles type type') :
    (usage position method type any : Except Inconsistency Bool).mapError (·.reason)
      = (usage position method type' any : Except Inconsistency Bool).mapError (·.reason) := by
  rw [Rule.usage_eq, Rule.usage_eq, Except.unlessError_mapError, Except.unlessError_mapError,
    h.reason_eq, h.accepts_eq]

end Resembles

-- What a container holds: an element, or the value for a key.
inductive Holds (type inner : Model) : Prop
  | element : type.kind = .list ∨ type.kind = .set → type.args[0]? = some inner → Holds type inner
  | value   : type.kind = .map → type.args[1]? = some inner → Holds type inner

theorem usage_eq_false_of_holds {inner : Model} (h : Holds type inner)
    (hc : inner.kind.isContainer) :
    (usage position method type any : Except Inconsistency Bool) = .ok false := by
  have he : isElement inner.kind any = false :=
    Bool.eq_false_iff.mpr fun he => not_isContainer_of_isElement he hc
  cases h
  case element hk ha =>
    have hl : 0 < type.args.length := (List.getElem?_eq_some_iff.mp ha).fst
    have hi : type.inconsistency? = none :=
      inconsistency?_of_args (fun hm => by simp [hm] at hk) hl
    rw [usage_eq_holdsLegal (isContainer_iff.mpr (hk.imp_right .inl)), hi,
      holdsLegal_element hk ha, he, Except.unlessError_none]
  case value hk ha   =>
    have hl : 1 < type.args.length := (List.getElem?_eq_some_iff.mp ha).fst
    have hi : type.inconsistency? = none :=
      inconsistency?_of_args (fun _ => hl) (Nat.zero_lt_of_lt hl)
    obtain ⟨_, _, hh⟩ := holdsLegal_value any hk ha
    have hn : isArgument inner.kind any = false := by simp_all [isElement]
    rw [usage_eq_holdsLegal (isContainer_iff.mpr (.inr (.inr hk))), hi, hh, hn, Bool.and_false,
      Except.unlessError_none]

-- The rule answers what the table says. It fails for a container without type arguments and for a
-- map with less than two, and that a list or set has type arguments but no element does not happen.
-- Types of the same form and kind, with arguments of the same kinds, have the same answer but for
-- the text of the type in an error. A container is never legal within another.
theorem usage_tabulated (position : Position) (method : Method) (type : Model) (any : Bool) :
    (∀ x, usage position method type any = x ↔ Row position any type x)
    ∧ (type.Saturated →
      ((∃ e, (usage position method type any : Except Inconsistency Bool) = .error e)
        ↔ type.kind.isContainer ∧ type.form ≠ .applied ∨ type.kind = .map ∧ type.args.length < 2))
    ∧ (Model.Made type → type.Everywhere fun n => n.Saturated ∧ (n.form = .applied → n.args ≠ []))
    ∧ (∀ type', Resembles type type' →
      (usage position method type any : Except Inconsistency Bool).mapError (·.reason)
        = (usage position method type' any : Except Inconsistency Bool).mapError (·.reason))
    ∧ ∀ inner, Holds type inner → inner.kind.isContainer →
      (usage position method type any : Except Inconsistency Bool) = .ok false := by
  refine ⟨fun x => usage_eq_iff_row, usage_eq_error_iff, fun hm n hn => ?_,
    fun type' h => h.usage_eq, fun inner h hc => usage_eq_false_of_holds h hc⟩
  have hs : n.Saturated := Model.everywhere_saturated_of_made hm n hn
  refine ⟨hs, fun hf he => ?_⟩
  cases n
  case applied =>
    obtain ⟨_, _, hp, _⟩ := hs
    exact absurd (List.length_pos_iff.mp hp) (not_not_intro he)
  all_goals contradiction

-- A list of lists of `void` is refused even where any type is allowed, and so is a list of lists
-- without arguments, although such a list by itself is an error.
theorem usage_tabulated_nested :
    let list := Model.cls ⟨.list, WellKnown.list, none, [⟨.cls WellKnown.list, 0, "E"⟩]⟩
    let inner := Model.applied list [.void]
    let type := Model.applied list [inner]
    let type' := Model.applied list [list]
    let method : Method := { owner := "com.acme.api.Widget", name := "send" }
    Model.Made type ∧ type.Saturated ∧ Holds type inner ∧ inner.kind.isContainer
    ∧ Resembles type type'
    ∧ (usage .result method type true : Except Inconsistency Bool) = .ok false
    ∧ (usage .result method type' true : Except Inconsistency Bool).mapError (·.reason) = .ok false
    ∧ (usage .result method list true : Except Inconsistency Bool) = .error (.notApplied list) := by
  intro list inner type type' method
  have hb : Registry.sample.build
      (.applied WellKnown.list [.applied WellKnown.list [.void]]) = .ok type := by rfl
  have hh : Holds type inner := .element (.inl rfl) rfl
  have hr : Resembles type type' := ⟨rfl, rfl, rfl⟩
  obtain ⟨_, _, hm, hc, hn⟩ := usage_tabulated .result method type true
  obtain ⟨hl, _⟩ := usage_tabulated .result method list true
  have hu : (usage .result method type true : Except Inconsistency Bool) = .ok false :=
    hn inner hh rfl
  refine ⟨.built hb, (hm (.built hb) type .self).left, hh, rfl, hr, hu, ?_,
    (hl _).mpr (.notApplied rfl Model.Form.noConfusion)⟩
  rw [← hc type' hr, hu]
  rfl

end Rule

end ApiSurface
