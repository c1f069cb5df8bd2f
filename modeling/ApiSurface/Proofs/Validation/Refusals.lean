import ApiSurface.Model.Equality
import ApiSurface.Proofs.Diagnostic.Notice
import ApiSurface.Proofs.Validation.Relaxing

namespace ApiSurface.Permissions

-- Whether the usage rule answers that a type is illegal at a position of a method.
def Refuses (p : Permissions) (method : Method) (position : Position) (type : Model) : Prop :=
  (Rule.usage position method type (p.allowsAny method position) : Except Inconsistency Bool)
    = .ok false

instance {p : Permissions} {method : Method} {position : Position} {type : Model} :
    Decidable (p.Refuses method position type) :=
  inferInstanceAs (Decidable (_ = _))

-- What is reported of a parameter that is refused.
def refusedParam (method : Method) (param : String × Model) : Diagnostic where
  category := .error
  code     := 1001
  subject  := method.owner ++ "#" ++ method.name
  text     := "type '" ++ param.2.display ++ "' of kind " ++ param.2.kind.label
    ++ " is not legal as parameter '" ++ param.1 ++ "' of method '" ++ method.name ++ "'"

-- What is reported of a return type that is refused.
def refusedResult (method : Method) (type : Model) : Diagnostic where
  category := .error
  code     := 1002
  subject  := method.owner ++ "#" ++ method.name
  text     := "type '" ++ type.display ++ "' of kind " ++ type.kind.label
    ++ " is not legal as the return type of method '" ++ method.name ++ "'"

variable {p : Permissions} {s : Signature} {method : Method} {position : Position} {type : Model}
  {notice : Notice} {args : List String} {subject : String} {ds : List Diagnostic}

theorem refuses_iff (h : type.inconsistency? = none) :
    p.Refuses method position type
      ↔ ¬Rule.accepts position type (p.allowsAny method position) := by
  rw [Refuses, Rule.usage_eq, h, Except.unlessError_none]
  simp

-- A position whose type is refused has the notice with its arguments as diagnostic.
theorem offence?_verdict (h : type.inconsistency? = none) :
    (p.verdict method position type notice args).offence? subject notice
      = if p.Refuses method position type then
          some ⟨notice.category, notice.code, subject, Template.fill notice.template args⟩
        else none := by
  rw [verdict]
  by_cases ha : Rule.accepts position type (p.allowsAny method position)
  case pos => rw [if_pos ha, if_neg (mt (refuses_iff h).mp (not_not_intro ha))]; rfl
  case neg => rw [if_neg ha, if_pos ((refuses_iff h).mpr ha)]; rfl

theorem paramOffences_eq (h : ∀ param ∈ s.params, param.2.inconsistency? = none) :
    p.paramOffences s
      = (s.params.filter (p.Refuses s.method .parameter ·.2)).map (refusedParam s.method) := by
  rw [paramOffences, ← List.filterMap_eq_filter, List.map_filterMap]
  refine List.filterMap_congr fun param hm => ?_
  rw [paramVerdict, offence?_verdict (h param hm), Template.fill_illegalParameter]
  by_cases hr : p.Refuses s.method .parameter param.2
  case pos => simp only [Option.guard, hr, decide_true, if_true, Option.map_some]; rfl
  case neg => simp only [Option.guard, hr, decide_false, if_false]; rfl

theorem resultOffence?_eq (h : s.returnType.inconsistency? = none) :
    p.resultOffence? s
      = if p.Refuses s.method .result s.returnType then
          some (refusedResult s.method s.returnType)
        else none := by
  rw [resultOffence?, resultVerdict, offence?_verdict h, Template.fill_illegalReturn]
  rfl

-- The diagnostics of a signature are those of the parameters that are refused, and that of the
-- return type.
theorem validate_refusals (h : p.validate s = .ok ds) :
    ds = (s.params.filter (p.Refuses s.method .parameter ·.2)).map (refusedParam s.method)
      ++ if p.Refuses s.method .result s.returnType then
          [refusedResult s.method s.returnType]
        else [] := by
  obtain ⟨hi, rfl⟩ := validate_eq_ok_iff.mp h
  rw [Signature.inconsistency?, Option.or_eq_none_iff, List.findSome?_eq_none_iff] at hi
  rw [paramOffences_eq hi.left, resultOffence?_eq hi.right]
  split <;> rfl

-- A method, two of its parameters and the types are named like placeholders and single braces. The
-- parameter in between is legal.
theorem validate_refusals_braces :
    let other := Model.cls ⟨.other, "{3}", none, []⟩
    let method : Method := { owner := "com.acme.api.Widget", name := "{0}" }
    let s : Signature := ⟨method, [(r"}", other), ("size", .primitive "int" "java.lang.Integer"),
      (r"}", other)], other⟩
    let param : Diagnostic := ⟨.error, 1001, "com.acme.api.Widget#{0}",
      r"type '{3}' of kind OTHER is not legal as parameter '}' of method '{0}'"⟩
    let result : Diagnostic := ⟨.error, 1002, "com.acme.api.Widget#{0}",
      "type '{3}' of kind OTHER is not legal as the return type of method '{0}'"⟩
    let p : Permissions := {}
    p.validate s = .ok [param, param, result] := by
  intro other method s param result p
  obtain ⟨ds, hv⟩ : ∃ ds, p.validate s = .ok ds := ⟨_, rfl⟩
  rw [hv, validate_refusals hv]
  rfl

end ApiSurface.Permissions
