import ApiSurface.Model.Equality
import ApiSurface.Proofs.Validation.Relaxing
import ApiSurface.Registry.Build
import ApiSurface.Registry.Standard

namespace ApiSurface

namespace Rule

-- `Misplaced position type any` means that `type` is or holds something of the kind `void` where
-- that is not legal.
inductive Misplaced : Position → Model → Bool → Prop
  | parameter {type any} : type.kind = .void → type = .void ∨ any = false →
      Misplaced .parameter type any
  | element {position type element} : type.kind = .list ∨ type.kind = .set →
      type.args[0]? = some element → element.kind = .void → Misplaced position type false
  | value {position type value} : type.kind = .map → type.args[1]? = some value →
      value.kind = .void → Misplaced position type false

variable {type : Model} {position : Position} {method : Method} {any : Bool}

namespace Misplaced

-- Nothing is wrong with what is misplaced, it is refused.
theorem inconsistency?_eq (h : Misplaced position type any) : type.inconsistency? = none := by
  cases h
  case parameter hk _           => simp [Model.inconsistency?, hk, Kind.isContainer]
  case element element _ hk he  =>
    have hl := (List.getElem?_eq_some_iff.mp he).fst
    refine inconsistency?_of_args (fun hm => ?_) hl
    simp [hm] at hk
  case value value _ hk he      =>
    have hl := (List.getElem?_eq_some_iff.mp he).fst
    exact inconsistency?_of_args (fun _ => hl) (Nat.zero_lt_of_lt hl)

theorem accepts_eq_false (h : Misplaced position type any) :
    accepts position type any = false := by
  cases h
  case parameter hk ha          =>
    by_cases hv : type = .void
    case pos => rw [hv]; rfl
    case neg =>
      obtain rfl := ha.resolve_left hv
      have hh : holdsLegal type false = false :=
        holdsLegal_of_not_isContainer (by rw [hk]; decide)
      have ht : type.form ≠ .typeVar := Model.form_ne_typeVar (by rw [hk]; decide)
      rw [accepts_eq (Model.form_ne_void hv) ht, hh, hk]
      rfl
  case element element hv hk he =>
    have hc : type.kind.isContainer := by obtain hk | hk := hk <;> rw [hk] <;> rfl
    rw [accepts_eq_holdsLegal hc, holdsLegal_element hk he, hv]
    rfl
  case value value hv hk he     =>
    have ⟨_, _, hh⟩ := holdsLegal_value false hk he
    rw [accepts_eq_holdsLegal (by rw [hk]; rfl), hh, hv]
    exact Bool.and_false _

theorem usage_eq_false (h : Misplaced position type any) :
    (usage position method type any : Except Inconsistency Bool) = .ok false := by
  rw [usage_eq, h.inconsistency?_eq, h.accepts_eq_false, Except.unlessError_none]

end Misplaced

end Rule

namespace Permissions

open Rule (Misplaced)

variable {p : Permissions} {method : Method} {position : Position} {type : Model}
  {notice : Notice} {args : List String}

theorem judge_misplaced (h : Misplaced position type (p.allowsAny method position)) :
    p.judge method position type notice args
      = .ok (.illegal (Template.fill notice.template args)) := by
  rw [judge_eq, h.inconsistency?_eq, verdict, h.accepts_eq_false]
  rfl

-- A type of the kind `void` is refused as a parameter if it is `void` itself or not any type is
-- allowed there. A container that holds one is refused in either position, unless any type is
-- allowed there. `void` is a return type.
theorem misplaced_illegal (p : Permissions) (method : Method) (type : Model) :
    (∀ position any, Misplaced position type any →
      (Rule.usage position method type any : Except Inconsistency Bool) = .ok false)
    ∧ (∀ name, Misplaced .parameter type (p.allowsAny method .parameter) →
      ∃ reason, p.judgeParam method name type = .ok (.illegal reason))
    ∧ (Misplaced .result type (p.allowsAny method .result) →
      ∃ reason, p.judgeReturn method type = .ok (.illegal reason))
    ∧ p.judgeReturn method .void = .ok .legal :=
  ⟨fun _ _ h => h.usage_eq_false, fun _ h => ⟨_, judge_misplaced h⟩,
    fun h => ⟨_, judge_misplaced h⟩, judge_eq⟩

-- Nothing of this kind is legal by default, neither by itself nor in a list or map. A parameter that
-- is `void` is not legal whatever is permitted.
theorem misplaced_illegal_boxed :
    let boxed := Model.cls ⟨.void, WellKnown.boxedVoid, none, []⟩
    let string := Model.cls ⟨.string, WellKnown.string, none, []⟩
    let list := Model.cls ⟨.list, WellKnown.list, none, [⟨.cls WellKnown.list, 0, "E"⟩]⟩
    let map := Model.cls ⟨.map, WellKnown.map, none,
      [⟨.cls WellKnown.map, 0, "K"⟩, ⟨.cls WellKnown.map, 1, "V"⟩]⟩
    let method : Method := { owner := "com.acme.api.Widget", name := "send" }
    let p : Permissions := {}
    let q : Permissions := { anyInParams := true, anyInReturns := true }
    (∃ reason, p.judgeParam method "value" boxed = .ok (.illegal reason))
    ∧ (∃ reason, p.judgeParam method "value" (.applied list [boxed]) = .ok (.illegal reason))
    ∧ (∃ reason, p.judgeReturn method (.applied map [string, .void]) = .ok (.illegal reason))
    ∧ (∃ reason, q.judgeParam method "value" .void = .ok (.illegal reason))
    ∧ q.judgeReturn method .void = .ok .legal := by
  intro boxed string list map method p q
  obtain ⟨_, hb, _⟩ := misplaced_illegal p method boxed
  obtain ⟨_, hl, _⟩ := misplaced_illegal p method (.applied list [boxed])
  obtain ⟨_, _, hm, _⟩ := misplaced_illegal p method (.applied map [string, .void])
  obtain ⟨_, hv, _, hr⟩ := misplaced_illegal q method .void
  exact ⟨hb _ (.parameter rfl (.inr rfl)), hl _ (.element (.inl rfl) rfl rfl),
    hm (.value rfl rfl rfl), hv _ (.parameter rfl (.inl rfl)), hr⟩

-- Where any type is permitted, the class of the kind `void` is a legal parameter, and lists and maps
-- of this kind are legal parameters and return types.
theorem legal_of_kind_void :
    let boxed := Model.cls ⟨.void, WellKnown.boxedVoid, none, []⟩
    let string := Model.cls ⟨.string, WellKnown.string, none, []⟩
    let list := Model.cls ⟨.list, WellKnown.list, none, [⟨.cls WellKnown.list, 0, "E"⟩]⟩
    let map := Model.cls ⟨.map, WellKnown.map, none,
      [⟨.cls WellKnown.map, 0, "K"⟩, ⟨.cls WellKnown.map, 1, "V"⟩]⟩
    let method : Method := { owner := "com.acme.api.Widget", name := "send" }
    let p : Permissions := { anyInParams := true, anyInReturns := true }
    let ofVoid := TypeRef.applied WellKnown.list [.void]
    let toVoid := TypeRef.applied WellKnown.map [.named WellKnown.string, .named WellKnown.boxedVoid]
    Registry.standard.build (.named WellKnown.boxedVoid) = .ok boxed ∧ boxed.kind = .void
    ∧ p.judgeParam method "value" boxed = .ok .legal
    ∧ Registry.standard.build ofVoid = .ok (.applied list [.void])
    ∧ p.judgeParam method "value" (.applied list [.void]) = .ok .legal
    ∧ p.judgeReturn method (.applied list [.void]) = .ok .legal
    ∧ Registry.standard.build toVoid = .ok (.applied map [string, boxed])
    ∧ p.judgeParam method "value" (.applied map [string, boxed]) = .ok .legal
    ∧ p.judgeReturn method (.applied map [string, boxed]) = .ok .legal := by
  decide +kernel

end Permissions

end ApiSurface
