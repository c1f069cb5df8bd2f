import ApiSurface.Proofs.Diagnostic.Notice
import ApiSurface.Proofs.Model.Nodes
import ApiSurface.Proofs.Validation.Relaxing

namespace ApiSurface

namespace Model

-- `Incomplete m e` means that `m` is a container without the type arguments it is judged by, and
-- that `e` says so.
inductive Incomplete (m : Model) : Inconsistency → Prop
  | unapplied : m.kind.isContainer → m.isApplied = false →
      Incomplete m ⟨m.display, "container type is not parameterized"⟩
  | map : m.kind = .map → m.isApplied → m.args.length < 2 →
      Incomplete m ⟨m.display, "map type needs key and value arguments"⟩

variable {m : Model} {e : Inconsistency}

theorem isEmpty_args (h : m.Applies) (ha : m.isApplied) : m.args.isEmpty = false := by
  cases m
  case applied raw args =>
    obtain ⟨_, _, _, hn, _⟩ := applyTo?_eq_ok_iff.mp h
    exact List.isEmpty_eq_false_iff.mpr hn
  all_goals contradiction

-- A list or set that was given its type arguments has an element.
theorem inconsistency?_eq_some_iff (h : m.Applies) :
    m.inconsistency? = some e ↔ m.Incomplete e := by
  constructor
  case mp =>
    intro he
    rw [inconsistency?] at he
    split at he
    case isTrue => cases he
    case isFalse hc =>
      have hc : m.kind.isContainer := by simpa using hc
      split at he
      case isTrue ha =>
        cases he
        exact .unapplied hc (by simpa using ha)
      case isFalse ha =>
        have ha : m.isApplied := by simpa using ha
        rw [isEmpty_args h ha] at he
        split at he
        case isTrue hm =>
          split at he <;> cases he
          exact .map hm ha ‹_›
        case isFalse => cases he
  case mpr =>
    intro he
    cases he
    case unapplied hc ha => simp [inconsistency?, hc, ha, Inconsistency.notApplied]
    case map hm ha hl    =>
      have hc : Kind.map.isContainer := rfl
      simp [inconsistency?, hm, hc, ha, hl, Inconsistency.missingKeyOrValue]

end Model

namespace Signature

-- The types at the positions of a signature, the return type last.
def types (s : Signature) : List Model :=
  s.params.map (·.2) ++ [s.returnType]

variable {s : Signature} {e : Inconsistency}

theorem inconsistency?_eq_findSome? :
    s.inconsistency? = s.types.findSome? Model.inconsistency? := by
  rw [inconsistency?, types, List.findSome?_append, List.findSome?_map, List.findSome?_singleton]
  rfl

theorem inconsistency?_eq_some_iff (h : ∀ type ∈ s.types, type.Applies) :
    s.inconsistency? = some e ↔ ∃ before type after, s.types = before ++ type :: after
      ∧ (∀ other ∈ before, ∀ e', ¬other.Incomplete e') ∧ type.Incomplete e := by
  rw [inconsistency?_eq_findSome?, List.findSome?_eq_some_iff]
  apply exists_congr; intro before
  apply exists_congr; intro type
  apply exists_congr; intro after
  apply and_congr_right; intro hs
  have ht : type.Applies := h type (by simp [hs])
  have hb : ∀ other ∈ before, other.inconsistency? = none ↔ ∀ e', ¬other.Incomplete e' := by
    intro other ho
    have ha : other.Applies := h other (by simp [hs, ho])
    simp only [Option.eq_none_iff_forall_ne_some, ne_eq, Model.inconsistency?_eq_some_iff ha]
  rw [Model.inconsistency?_eq_some_iff ht, and_comm, forall₂_congr hb]

end Signature

namespace Permissions

variable {p : Permissions} {s : Signature} {ds : List Diagnostic} {e : Inconsistency}

theorem reportAll_append (p : Permissions) (before after : List Signature) :
    p.reportAll (before ++ after) = p.reportAll before ++ p.reportAll after :=
  List.flatMap_append

theorem reportAll_cons (p : Permissions) (s : Signature) (after : List Signature) :
    p.reportAll (s :: after) = p.report s ++ p.reportAll after :=
  List.flatMap_cons

theorem report_of_ok (h : p.validate s = .ok ds) : p.report s = ds := by
  rw [report, h]

-- What ended the validation is in the text as it is, and so is the name of the method.
theorem report_of_error (h : p.validate s = .error e) :
    p.report s = [⟨.error, 2001, s.method.qualifiedName,
      "internal type model inconsistency while checking method '" ++ s.method.name ++ "': "
        ++ ("invariant violated for '" ++ e.typeName ++ "': " ++ e.reason)⟩] := by
  have hr : p.report s
      = [.ofNotice s.method.qualifiedName .inconsistentModel [s.method.name, e.message]] := by
    rw [report, h]
  rw [hr, Diagnostic.ofNotice, Template.fill_inconsistentModel]
  rfl

-- A batch reports what its parts report. In it each signature has its own diagnostics, or one for
-- what ended its validation: the first of its types that is a container without the type arguments
-- to look at.
theorem reportAll_apart (p : Permissions) :
    (∀ before after, p.reportAll (before ++ after) = p.reportAll before ++ p.reportAll after)
    ∧ (∀ before s after ds, p.validate s = .ok ds →
        p.reportAll (before ++ s :: after) = p.reportAll before ++ ds ++ p.reportAll after)
    ∧ (∀ before s after e, p.validate s = .error e →
        p.reportAll (before ++ s :: after) = p.reportAll before
          ++ [⟨.error, 2001, s.method.qualifiedName,
            "internal type model inconsistency while checking method '" ++ s.method.name ++ "': "
              ++ ("invariant violated for '" ++ e.typeName ++ "': " ++ e.reason)⟩]
          ++ p.reportAll after)
    ∧ ∀ s : Signature, (∀ type ∈ s.types, type.Applies) → ∀ e,
        p.validate s = .error e ↔ ∃ before type after, s.types = before ++ type :: after
          ∧ (∀ other ∈ before, ∀ e', ¬other.Incomplete e') ∧ type.Incomplete e := by
  refine ⟨p.reportAll_append, fun before s after ds h => ?ok, fun before s after e h => ?error,
    fun s h e => ?first⟩
  case ok    => rw [reportAll_append, reportAll_cons, report_of_ok h, List.append_assoc]
  case error => rw [reportAll_append, reportAll_cons, report_of_error h, List.append_assoc]
  case first => rw [validate_eq_error_iff, Signature.inconsistency?_eq_some_iff h]

-- A list without arguments before a map with one argument, on a method with the name of a
-- placeholder, between two signatures with an offence.
theorem reportAll_apart_list :
    let other := Model.cls ⟨.other, "com.acme.internal.Opaque", none, []⟩
    let list := Model.cls ⟨.list, WellKnown.list, none, [⟨.cls WellKnown.list, 0, "E"⟩]⟩
    let map := Model.cls ⟨.map, WellKnown.map, none, [⟨.cls WellKnown.map, 0, "K"⟩]⟩
    let method : Method := { owner := "com.acme.api.Widget", name := "{1}" }
    let sound : Signature := ⟨method, [("value", other)], .void⟩
    let broken : Signature := ⟨method, [("value", other), ("items", list)], .applied map [other]⟩
    let found := Diagnostic.ofNotice "com.acme.api.Widget#{1}" .illegalParameter
      ["com.acme.internal.Opaque", "OTHER", "value", "{1}"]
    let p : Permissions := {}
    (∀ type ∈ broken.types, type.Applies)
    ∧ p.validate sound = .ok [found]
    ∧ p.validate broken = .error ⟨WellKnown.list, "container type is not parameterized"⟩
    ∧ p.reportAll ([sound] ++ broken :: [sound])
      = [found, ⟨.error, 2001, "com.acme.api.Widget#{1}",
          "internal type model inconsistency while checking method '{1}': invariant violated "
            ++ "for 'java.util.List': container type is not parameterized"⟩, found] := by
  intro other list map method sound broken found p
  obtain ⟨_, ho, he, hf⟩ := p.reportAll_apart
  have ht : ∀ type ∈ broken.types, type.Applies := by
    refine List.forall_mem_cons.mpr ⟨trivial, List.forall_mem_cons.mpr ⟨trivial, ?_⟩⟩
    exact List.forall_mem_singleton.mpr rfl
  have hs : p.validate sound = .ok [found] := by decide +kernel
  have hb : p.validate broken = .error ⟨WellKnown.list, "container type is not parameterized"⟩ := by
    refine (hf broken ht _).mpr ⟨[other], list, [.applied map [other]], rfl, ?_, .unapplied rfl rfl⟩
    intro m hm e he
    cases List.mem_singleton.mp hm
    cases he <;> contradiction
  refine ⟨ht, hs, hb, ?_⟩
  have hr := (ho [] sound [] _ hs)
  rw [List.nil_append] at hr
  rw [he [sound] broken [sound] _ hb, hr]
  rfl

end Permissions

end ApiSurface
