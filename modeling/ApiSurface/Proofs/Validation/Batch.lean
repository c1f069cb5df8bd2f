import ApiSurface.Proofs.Outcome
import ApiSurface.Validation

namespace ApiSurface.Permissions

-- `Offence p s d` means that `d` is the diagnostic of an illegal position of `s`.
inductive Offence (p : Permissions) (s : Signature) : Diagnostic → Prop
  | param {name type reason} : (name, type) ∈ s.params →
      p.judgeParam s.method name type = .ok (.illegal reason) →
      Offence p s ⟨.error, Notice.illegalParameter.code, s.method.qualifiedName, reason⟩
  | result {reason} : p.judgeReturn s.method s.returnType = .ok (.illegal reason) →
      Offence p s ⟨.error, Notice.illegalReturn.code, s.method.qualifiedName, reason⟩

-- No position of a signature has a model that contradicts itself.
structure Coherent (p : Permissions) (s : Signature) : Prop where
  params : ∀ param ∈ s.params, (p.judgeParam s.method param.1 param.2).isOk
  result : (p.judgeReturn s.method s.returnType).isOk

variable {p : Permissions} {s : Signature} {signatures : List Signature} {d : Diagnostic}
  {ds : List Diagnostic}

theorem isOk_validate_iff : (p.validate s).isOk ↔ p.Coherent s := by
  simp only [validate, Except.isOk_bind]
  constructor
  case mp =>
    intro ⟨_, hp, result, hr, _⟩
    exact ⟨Except.isOk_mapM.mp (Except.isOk_iff.mpr ⟨_, hp⟩), Except.isOk_iff.mpr ⟨result, hr⟩⟩
  case mpr =>
    intro ⟨hp, hr⟩
    have ⟨_, hp⟩ := Except.isOk_iff.mp (Except.isOk_mapM.mpr hp)
    have ⟨_, hr⟩ := Except.isOk_iff.mp hr
    exact ⟨_, hp, _, hr, rfl⟩

theorem offence?_eq_some_iff {subject : String} {notice : Notice} {v : Verdict} :
    v.offence? subject notice = some d
      ↔ ∃ reason, v = .illegal reason ∧ ⟨notice.category, notice.code, subject, reason⟩ = d := by
  cases v <;> simp [Verdict.offence?]

theorem mem_validate_iff (h : p.validate s = .ok ds) : d ∈ ds ↔ p.Offence s d := by
  have ⟨params, hp, h⟩ := Except.bind_eq_ok.mp h
  have ⟨result, hr, h⟩ := Except.bind_eq_ok.mp h
  obtain rfl := Except.ok.inj h
  simp only [List.mem_append, List.mem_filterMap, Option.mem_toList, offence?_eq_some_iff,
    Except.mem_iff_of_mapM hp]
  constructor
  case mp =>
    rintro (⟨_, ⟨_, hm, hv⟩, reason, rfl, rfl⟩ | ⟨reason, rfl, rfl⟩)
    case inl => exact .param hm hv
    case inr => exact .result hr
  case mpr =>
    intro ho
    cases ho
    case param name type reason hm hv => exact .inl ⟨_, ⟨(name, type), hm, hv⟩, reason, rfl, rfl⟩
    case result reason hv =>
      exact .inr ⟨reason, Except.ok.inj (hr.symm.trans hv), rfl⟩

theorem mem_report_iff :
    d ∈ p.report s ↔ p.Coherent s ∧ p.Offence s d ∨ ∃ err, p.validate s = .error err
      ∧ d = .ofNotice s.method.qualifiedName .inconsistentModel [s.method.name, err.message] := by
  rw [report, ← isOk_validate_iff]
  cases h : p.validate s
  case ok ds => simp [mem_validate_iff h]
  case error => simp

-- A batch reports the offences of its coherent signatures, and of each other one what ended its
-- validation.
theorem mem_reportAll_iff (p : Permissions) (signatures : List Signature) (d : Diagnostic) :
    d ∈ p.reportAll signatures ↔ ∃ s ∈ signatures, p.Coherent s ∧ p.Offence s d
      ∨ ∃ err, p.validate s = .error err
        ∧ d = .ofNotice s.method.qualifiedName .inconsistentModel [s.method.name, err.message] := by
  simp only [reportAll, List.mem_flatMap, mem_report_iff]

-- The offence of a parameter is lost beside a list that is not applied.
theorem offence_not_mem_reportAll :
    let other := Model.cls ⟨.other, "com.acme.internal.Opaque", none, []⟩
    let list := Model.cls ⟨.list, WellKnown.list, none, [⟨.cls WellKnown.list, 0, "E"⟩]⟩
    let method : Method := { owner := "com.acme.api.Widget", name := "send" }
    let s : Signature := ⟨method, [("value", other), ("items", list)], .void⟩
    let d : Diagnostic := ⟨.error, Notice.illegalParameter.code, "com.acme.api.Widget#send",
      "type 'com.acme.internal.Opaque' of kind OTHER is not legal as parameter 'value' of "
        ++ "method 'send'"⟩
    Offence {} s d ∧ d ∉ reportAll {} [s] := by
  intro other list method s d
  have hp : judgeParam {} method "value" other = .ok (.illegal d.text) := by decide +kernel
  have hv : validate {} s = .error (.notApplied list) := by decide +kernel
  constructor
  case left  => exact .param (.head _) hp
  case right =>
    simp [reportAll, report, hv, d, Diagnostic.ofNotice, Notice.illegalParameter,
      Notice.inconsistentModel]

end ApiSurface.Permissions
