import ApiSurface.Proofs.Build.Machine
import ApiSurface.Registry.Standard

namespace ApiSurface

-- What a reference with arguments comes to, given what the arguments and the class come to: the
-- first error among the arguments, or else the error of the class, or else the class with the
-- arguments.
inductive Combined :
    List (Except ModelError Model) → Except ModelError Model → Except ModelError Model → Prop
  | arg {ms : List Model} {e rest raw} : Combined (ms.map .ok ++ .error e :: rest) raw (.error e)
  | raw {ms : List Model} {e}          : Combined (ms.map .ok) (.error e) (.error e)
  | applied {ms : List Model} {raw}    : Combined (ms.map .ok) (.ok raw) (raw.applyTo? ms)

namespace Registry

variable {R : Registry} {root : Call} {b : Building} {opened : List String} {name : String}
  {args : List TypeRef}

theorem combined_buildIn : Combined (args.map (R.buildIn opened)) (R.buildIn opened (.named name))
    (R.buildIn opened (.applied name args)) := by
  rw [buildIn_applied]
  obtain ⟨ms, hm, he⟩ | ⟨ms, e, rest, hm, he⟩ := Except.mapM_cases (R.buildIn opened) args <;>
    rw [hm, he]
  case inr => exact .arg
  case inl =>
    cases R.buildIn opened (.named name)
    case error => exact .raw
    case ok    => exact .applied

theorem OnCourse.of_done {answer : Except ModelError Model} (h : R.OnCourse root b)
    (hd : b.script = .done answer) :
    b.opened = b.call.opened ∧ answer = R.buildIn b.call.opened b.call.type := by
  have hs := h.script
  rw [hd] at hs
  generalize b.opened = opened at hs
  cases hs
  exact ⟨rfl, rfl⟩

-- Whichever interfaces are open and whichever calls wait, a call comes to its answer with the same
-- ones open and waiting. All along, whenever a call is answered, those interfaces are open that were
-- when it was made, and the answer is up to the call alone. So a reference with arguments comes to
-- what its parts come to by themselves.
theorem build_restores (R : Registry) :
    (∀ c waiting, R.Reaches (R.enter c waiting)
      ⟨c.opened, c, .done (R.buildIn c.opened c.type), waiting⟩)
    ∧ (∀ root b answer, R.Reaches (R.enter root []) b → b.script = .done answer →
        b.opened = b.call.opened ∧ answer = R.buildIn b.call.opened b.call.type)
    ∧ R.buildIn [] = R.build
    ∧ ∀ name args,
        Combined (args.map R.build) (R.build (.named name)) (R.build (.applied name args)) := by
  have hb : R.buildIn [] = R.build := funext fun t => build_eq_buildIn.symm
  refine ⟨reaches_done R, fun root b answer hr hd => ?calls, hb,
    fun name args => ?parts⟩
  case calls => exact (onCourse_of_reaches hr (onCourse_enter R root)).of_done hd
  case parts => exact hb ▸ combined_buildIn

-- An interface whose slot fails, as the argument of a list that is modelled inside another interface.
theorem build_restores_failing :
    let R := standard.register { name := "Bad", flags := { api := true }
                                 supertypes := [.applied WellKnown.handler [.named "Missing"]] }
    let c : Call := ⟨.applied WellKnown.list [.named "Bad"], ["Outer"]⟩
    R.Reaches (R.enter c []) ⟨["Outer"], c, .done (.error (.unknownDeclaration "Missing")), []⟩ := by
  intro R c
  have he : R.buildIn c.opened c.type = .error (.unknownDeclaration "Missing") := by
    rfl
  exact he ▸ (build_restores R).left c []

end Registry

end ApiSurface
