import ApiSurface.Proofs.Legality.Usage
import ApiSurface.Validation

namespace ApiSurface

namespace Signature

-- The signature, with its method asking for types that are not modelled otherwise.
def permittingAny (s : Signature) : Signature :=
  { s with method := { s.method with permitsAny := true } }

-- A signature is relaxed by leaving its method as it is or by having it ask for any type.
def RelaxedBy (s s' : Signature) : Prop :=
  s' = s ∨ s' = s.permittingAny

-- What is wrong with the first model of the signature that contradicts itself.
def inconsistency? (s : Signature) : Option Inconsistency :=
  (s.params.findSome? (·.2.inconsistency?)).or s.returnType.inconsistency?

end Signature

namespace Permissions

-- All that `p` permits is permitted by `q`.
instance : LE Permissions where
  le p q := (p.anyInParams → q.anyInParams) ∧ (p.anyInReturns → q.anyInReturns)

-- How a type is judged that does not contradict itself.
def verdict (p : Permissions) (method : Method) (position : Position) (type : Model)
    (notice : Notice) (args : List String) : Verdict :=
  if Rule.accepts position type (p.allowsAny method position) then .legal
  else .illegal (Template.fill notice.template args)

def paramVerdict (p : Permissions) (method : Method) (param : String × Model) : Verdict :=
  p.verdict method .parameter param.2 .illegalParameter
    [param.2.display, param.2.kind.label, param.1, method.name]

def resultVerdict (p : Permissions) (method : Method) (type : Model) : Verdict :=
  p.verdict method .result type .illegalReturn [type.display, type.kind.label, method.name]

-- The diagnostics for the parameters of a signature.
def paramOffences (p : Permissions) (s : Signature) : List Diagnostic :=
  s.params.filterMap fun param =>
    (p.paramVerdict s.method param).offence? s.method.qualifiedName .illegalParameter

-- The diagnostic for the return type of a signature.
def resultOffence? (p : Permissions) (s : Signature) : Option Diagnostic :=
  (p.resultVerdict s.method s.returnType).offence? s.method.qualifiedName .illegalReturn

variable {p q : Permissions} {s s' : Signature} {method method' : Method} {position : Position}
  {type : Model} {notice : Notice} {args : List String} {signatures signatures' : List Signature}

theorem judge_eq :
    p.judge method position type notice args
      = Except.unlessError type.inconsistency? (p.verdict method position type notice args) := by
  rw [judge, Rule.usage_eq, verdict]
  cases type.inconsistency?
  case some e => rfl
  case none   => cases Rule.accepts position type (p.allowsAny method position) <;> rfl

-- Whatever is permitted, a signature fails for its first model that contradicts itself.
theorem validate_eq :
    p.validate s = Except.unlessError s.inconsistency?
      (p.paramOffences s ++ (p.resultOffence? s).toList) := by
  have hp : (s.params.mapM fun param => p.judgeParam s.method param.1 param.2)
      = Except.unlessError (s.params.findSome? (·.2.inconsistency?))
          (s.params.map (p.paramVerdict s.method)) := by
    rw [← Except.mapM_unlessError]
    exact Except.mapM_congr fun _ _ => judge_eq
  have hr : p.judgeReturn s.method s.returnType
      = Except.unlessError s.returnType.inconsistency? (p.resultVerdict s.method s.returnType) :=
    judge_eq
  rw [validate, hp, hr, Signature.inconsistency?, paramOffences, resultOffence?]
  simp only [Except.pure_eq_ok, Except.unlessError_bind_ok, Except.unlessError_bind,
    List.filterMap_map]
  rfl

theorem validate_eq_error_iff {e : Inconsistency} :
    p.validate s = .error e ↔ s.inconsistency? = some e := by
  rw [validate_eq]
  cases s.inconsistency? <;> simp

theorem validate_eq_ok_iff {ds : List Diagnostic} :
    p.validate s = .ok ds ↔ s.inconsistency? = none
      ∧ p.paramOffences s ++ (p.resultOffence? s).toList = ds := by
  rw [validate_eq]
  cases s.inconsistency? <;> simp

theorem inconsistency?_relaxed (h : s.RelaxedBy s') : s'.inconsistency? = s.inconsistency? := by
  obtain rfl | rfl := h <;> rfl

theorem allowsAny_relaxed (hpq : p ≤ q) (hs : s.RelaxedBy s') (position : Position) :
    p.allowsAny s.method position → q.allowsAny s'.method position := by
  obtain rfl | rfl := hs
  case inl =>
    simp only [allowsAny, Bool.or_eq_true]
    refine Or.imp_left ?_
    cases position
    case parameter => exact hpq.left
    case result    => exact hpq.right
  case inr => simp [allowsAny, Signature.permittingAny]

-- Where more is allowed a type is accepted, or is judged as before.
theorem verdict_of_allowsAny
    (h : p.allowsAny method position → q.allowsAny method' position) :
    q.verdict method' position type notice args = .legal
      ∨ q.verdict method' position type notice args
        = p.verdict method position type notice args := by
  simp only [verdict]
  have hm : Rule.accepts position type _ → Rule.accepts position type _ := Rule.accepts_mono h
  split
  case isTrue     => exact .inl rfl
  case isFalse hq => exact .inr (if_neg (mt hm hq)).symm

theorem paramVerdict_relaxed (hpq : p ≤ q) (hs : s.RelaxedBy s') (param : String × Model) :
    q.paramVerdict s'.method param = .legal
      ∨ q.paramVerdict s'.method param = p.paramVerdict s.method param := by
  have hn : s'.method.name = s.method.name := by obtain rfl | rfl := hs <;> rfl
  simp only [paramVerdict, hn]
  exact verdict_of_allowsAny (allowsAny_relaxed hpq hs .parameter)

theorem resultVerdict_relaxed (hpq : p ≤ q) (hs : s.RelaxedBy s') (type : Model) :
    q.resultVerdict s'.method type = .legal
      ∨ q.resultVerdict s'.method type = p.resultVerdict s.method type := by
  have hn : s'.method.name = s.method.name := by obtain rfl | rfl := hs <;> rfl
  simp only [resultVerdict, hn]
  exact verdict_of_allowsAny (allowsAny_relaxed hpq hs .result)

theorem filterMap_sublist {α β : Type} {f g : α → Option β} {as : List α}
    (h : ∀ a ∈ as, g a = none ∨ g a = f a) : (as.filterMap g).Sublist (as.filterMap f) := by
  induction as
  case nil          => exact .slnil
  case cons a as hi =>
    rw [List.forall_mem_cons] at h
    have hi := hi h.right
    rw [List.filterMap_cons, List.filterMap_cons]
    obtain ha | ha := h.left <;> rw [ha]
    case inl =>
      cases f a
      case none   => exact hi
      case some b => exact hi.cons b
    case inr =>
      cases f a
      case none   => exact hi
      case some b => exact hi.cons_cons b

theorem offence?_of_verdict {v v' : Verdict} {subject : String} (h : v' = .legal ∨ v' = v) :
    v'.offence? subject notice = none
      ∨ v'.offence? subject notice = v.offence? subject notice :=
  h.imp (fun h => by rw [h]; rfl) fun h => by rw [h]

theorem paramOffences_relaxed (hpq : p ≤ q) (hs : s.RelaxedBy s') :
    (q.paramOffences s').Sublist (p.paramOffences s) := by
  have hp : s'.params = s.params := by obtain rfl | rfl := hs <;> rfl
  have hn : s'.method.qualifiedName = s.method.qualifiedName := by obtain rfl | rfl := hs <;> rfl
  rw [paramOffences, paramOffences, hp, hn]
  exact filterMap_sublist fun param _ => offence?_of_verdict (paramVerdict_relaxed hpq hs param)

theorem resultOffence?_relaxed (hpq : p ≤ q) (hs : s.RelaxedBy s') :
    (q.resultOffence? s').toList.Sublist (p.resultOffence? s).toList := by
  have hr : s'.returnType = s.returnType := by obtain rfl | rfl := hs <;> rfl
  have hn : s'.method.qualifiedName = s.method.qualifiedName := by obtain rfl | rfl := hs <;> rfl
  rw [resultOffence?, resultOffence?, hr, hn]
  obtain h | h := offence?_of_verdict (resultVerdict_relaxed hpq hs s.returnType)
  case inl => rw [h]; exact List.nil_sublist _
  case inr => rw [h]

-- The diagnostics of the parameters and that of the return type are told apart by their codes.

theorem code_of_mem_paramOffences {d : Diagnostic} (h : d ∈ p.paramOffences s) :
    d.code = Notice.illegalParameter.code := by
  obtain ⟨param, _, h⟩ := List.mem_filterMap.mp h
  cases hv : p.paramVerdict s.method param <;> rw [hv] at h <;> cases h
  rfl

theorem code_of_mem_resultOffence? {d : Diagnostic} (h : d ∈ (p.resultOffence? s).toList) :
    d.code = Notice.illegalReturn.code := by
  rw [resultOffence?, Option.mem_toList] at h
  cases hv : p.resultVerdict s.method s.returnType <;> rw [hv] at h <;> cases h
  rfl

theorem filter_illegalParameter :
    (p.paramOffences s ++ (p.resultOffence? s).toList).filter
      (·.code = Notice.illegalParameter.code) = p.paramOffences s := by
  rw [List.filter_append, List.filter_eq_self.mpr fun d hd => ?param,
    List.filter_eq_nil_iff.mpr fun d hd => ?result, List.append_nil]
  case param  => simp [code_of_mem_paramOffences hd]
  case result => simp [code_of_mem_resultOffence? hd, Notice.illegalParameter, Notice.illegalReturn]

theorem filter_illegalReturn :
    (p.paramOffences s ++ (p.resultOffence? s).toList).filter
      (·.code = Notice.illegalReturn.code) = (p.resultOffence? s).toList := by
  rw [List.filter_append, List.filter_eq_nil_iff.mpr fun d hd => ?param,
    List.filter_eq_self.mpr fun d hd => ?result, List.nil_append]
  case param  => simp [code_of_mem_paramOffences hd, Notice.illegalParameter, Notice.illegalReturn]
  case result => simp [code_of_mem_resultOffence? hd]

theorem paramOffences_congr (h : q.anyInParams = p.anyInParams) :
    q.paramOffences s = p.paramOffences s := by
  have ha (method : Method) : q.allowsAny method .parameter = p.allowsAny method .parameter := by
    rw [allowsAny, allowsAny, h]
  simp only [paramOffences, paramVerdict, verdict, ha]

theorem resultOffence?_congr (h : q.anyInReturns = p.anyInReturns) :
    q.resultOffence? s = p.resultOffence? s := by
  have ha (method : Method) : q.allowsAny method .result = p.allowsAny method .result := by
    rw [allowsAny, allowsAny, h]
  simp only [resultOffence?, resultVerdict, verdict, ha]

theorem report_relaxed (hpq : p ≤ q) (hs : s.RelaxedBy s') :
    (q.report s').Sublist (p.report s) := by
  rw [report, report, validate_eq, validate_eq, inconsistency?_relaxed hs]
  cases s.inconsistency?
  case none   => exact (paramOffences_relaxed hpq hs).append (resultOffence?_relaxed hpq hs)
  case some e => obtain rfl | rfl := hs <;> exact .refl _

theorem reportAll_relaxed (hpq : p ≤ q)
    (hs : List.Forall₂ Signature.RelaxedBy signatures signatures') :
    (q.reportAll signatures').Sublist (p.reportAll signatures) := by
  induction hs
  case nil          => exact .slnil
  case cons hs _ hi => exact (report_relaxed hpq hs).append hi

-- Permitting more changes nothing about which signatures fail and why. Of the others, offences only
-- go away; those of the return type stay if no more is permitted there, and so do those of the
-- parameters.
theorem validate_relaxed (hpq : p ≤ q) :
    (∀ s s' : Signature, s.RelaxedBy s' →
      (∀ e, q.validate s' = .error e ↔ p.validate s = .error e)
      ∧ ∀ strict relaxed, p.validate s = .ok strict → q.validate s' = .ok relaxed →
        relaxed.Sublist strict
        ∧ (s' = s → q.anyInReturns = p.anyInReturns →
          relaxed.filter (·.code = Notice.illegalReturn.code)
            = strict.filter (·.code = Notice.illegalReturn.code))
        ∧ (s' = s → q.anyInParams = p.anyInParams →
          relaxed.filter (·.code = Notice.illegalParameter.code)
            = strict.filter (·.code = Notice.illegalParameter.code)))
    ∧ ∀ signatures signatures', List.Forall₂ Signature.RelaxedBy signatures signatures' →
      (q.reportAll signatures').Sublist (p.reportAll signatures) := by
  refine ⟨fun s s' hs => ⟨fun e => ?error, fun strict relaxed hp hq => ?ok⟩, fun _ _ =>
    reportAll_relaxed hpq⟩
  case error => rw [validate_eq_error_iff, validate_eq_error_iff, inconsistency?_relaxed hs]
  case ok =>
    obtain ⟨_, rfl⟩ := validate_eq_ok_iff.mp hp
    obtain ⟨_, rfl⟩ := validate_eq_ok_iff.mp hq
    refine ⟨(paramOffences_relaxed hpq hs).append (resultOffence?_relaxed hpq hs), ?_, ?_⟩
    · rintro rfl h
      rw [filter_illegalReturn, filter_illegalReturn, resultOffence?_congr h]
    · rintro rfl h
      rw [filter_illegalParameter, filter_illegalParameter, paramOffences_congr h]

-- Parameters of any type are permitted, and one method asks for any type. Its list has no
-- arguments, which is reported all the same.
theorem validate_relaxed_params :
    let other := Model.cls ⟨.other, "com.acme.internal.Opaque", none, []⟩
    let list := Model.cls ⟨.list, WellKnown.list, none, [⟨.cls WellKnown.list, 0, "E"⟩]⟩
    let method : Method := { owner := "com.acme.api.Widget", name := "send" }
    let s : Signature := ⟨method, [("value", other)], other⟩
    let broken : Signature := ⟨method, [("value", other), ("items", list)], .void⟩
    let p : Permissions := {}
    let q : Permissions := { anyInParams := true }
    let param := Diagnostic.ofNotice "com.acme.api.Widget#send" .illegalParameter
      ["com.acme.internal.Opaque", "OTHER", "value", "send"]
    let result := Diagnostic.ofNotice "com.acme.api.Widget#send" .illegalReturn
      ["com.acme.internal.Opaque", "OTHER", "send"]
    p ≤ q ∧ q.anyInReturns = p.anyInReturns
    ∧ p.validate s = .ok [param, result] ∧ q.validate s = .ok [result]
    ∧ p.validate broken = .error (.notApplied list)
    ∧ q.validate broken.permittingAny = .error (.notApplied list)
    ∧ [result].Sublist [param, result]
    ∧ [result].filter (·.code = Notice.illegalReturn.code)
      = [param, result].filter (·.code = Notice.illegalReturn.code)
    ∧ (q.reportAll [s, broken.permittingAny]).Sublist (p.reportAll [s, broken]) := by
  intro other list method s broken p q param result
  have hpq : p ≤ q := ⟨fun _ => rfl, id⟩
  have hp : p.validate s = .ok [param, result] := by decide +kernel
  have hq : q.validate s = .ok [result] := by decide +kernel
  have hb : p.validate broken = .error (.notApplied list) := by decide +kernel
  obtain ⟨hs, hl⟩ := validate_relaxed hpq
  obtain ⟨hd, hr, _⟩ := (hs s s (.inl rfl)).right _ _ hp hq
  exact ⟨hpq, rfl, hp, hq, hb, ((hs broken _ (.inr rfl)).left _).mpr hb, hd, hr rfl rfl,
    hl _ _ (.cons (.inl rfl) (.cons (.inr rfl) .nil))⟩

end Permissions

end ApiSurface
