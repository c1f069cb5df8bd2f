import ApiSurface.Model.Equality
import ApiSurface.Proofs.Model.RoundTrip

namespace ApiSurface

open Json (Fields Value)

-- Each slot that is filled holds what was read from some value that is nested less deep.
theorem Slots.exists_of_ofValue {α : Type} {content : Value → Except Fault α} {v : Value}
    {slots : Slots α} {slot : Slot} {a : α} (h : ofValue content v = .ok slots)
    (hs : slots.get slot = some a) : ∃ w, w.depth < v.depth ∧ content w = .ok a := by
  have ⟨⟨_, _, _, _, _, _, _⟩, hr, he⟩ := Except.bind_eq_ok.mp h
  have ⟨h₁, h₂, h₃, h₄, h₅, h₆, h₇⟩ := Fields.given_of_read hr
  cases he
  cases slot
  case readStream  => exact Fields.given_optional h₁ hs
  case writeStream => exact Fields.given_optional h₂ hs
  case handler     => exact Fields.given_optional h₃ hs
  case iterable    => exact Fields.given_optional h₄ hs
  case iterator    => exact Fields.given_optional h₅ hs
  case functionIn  => exact Fields.given_optional h₆ hs
  case functionOut => exact Fields.given_optional h₇ hs

namespace Model

variable {m : Model} {shape : Shape} {inner : Value → Except Fault Model} {v : Value}

-- The nodes of what is read from a value are those of the models that are read within it, and the
-- model that is put together of these.
theorem everywhere_ofShape (hn : ∀ v m, inner v = .ok m → m.Everywhere Saturated)
    (h : ofShape inner v shape = .ok m) : m.Everywhere Saturated := by
  cases shape
  case api =>
    obtain ⟨⟨info, slots⟩, hr, he⟩ := Except.bind_eq_ok.mp h
    obtain ⟨_, hs⟩ := Fields.given_of_read hr
    obtain ⟨w, _, hs⟩ := Fields.given_required hs
    cases he
    refine .of_api trivial fun slot a ha => ?_
    obtain ⟨w, _, hw⟩ := Slots.exists_of_ofValue hs ha
    exact hn w a hw
  case applied =>
    obtain ⟨⟨raw, args⟩, hr, he⟩ := Except.bind_eq_ok.mp h
    obtain ⟨hraw, hargs⟩ := Fields.given_of_read hr
    obtain ⟨w, _, hraw⟩ := Fields.given_required hraw
    obtain ⟨ws, _, hargs⟩ := Fields.given_required hargs
    have happ := Except.mapError_eq_ok.mp he
    obtain ⟨rfl, _⟩ := applyTo?_eq_ok_iff.mp happ
    refine .of_applied (saturated_of_applies happ) (hn w raw hraw) fun a ha => ?_
    obtain ⟨w, _, hw⟩ := Value.exists_of_asList hargs a ha
    exact hn w a hw
  case void =>
    simp only [ofShape] at h
    split at h <;> cases h
    exact .of_leaf trivial trivial
  all_goals
    obtain ⟨_, _, he⟩ := Except.bind_eq_ok.mp h
    cases he
    exact .of_leaf trivial trivial

theorem everywhere_ofValueWithin {depth : Nat} (h : ofValueWithin depth v = .ok m) :
    m.Everywhere Saturated := by
  induction depth generalizing v m
  case zero          => cases h
  case succ depth hi =>
    have ⟨_, _, h⟩ := Except.bind_eq_ok.mp h
    exact everywhere_ofShape (fun _ _ => hi) h

theorem everywhere_read {s : String} (h : read s = .ok m) : m.Everywhere Saturated := by
  have ⟨_, _, h⟩ := Except.bind_eq_ok.mp h
  have ⟨_, hv, h⟩ := Except.bind_eq_ok.mp h
  have ⟨_, _, h⟩ := Except.bind_eq_ok.mp h
  cases h
  exact everywhere_ofValueWithin hv

theorem read_write_eq_verdict (hi : m.IndicesFit) (hn : Json.nesting m.write ≤ 127) :
    read m.write = m.verdict := by
  have hd : m.toValue.depth ≤ 127 := Json.nesting_text (toValue_plain hi) ▸ hn
  have hv : ofValue m.toValue = m.verdict := ofValueWithin_toValue_eq_verdict hi (Nat.le_refl _)
  have he : Json.expectEnd [] = .ok () := rfl
  rw [read, skipBlanks_write hi, readOuter_toValue hi, Json.maxDepth, if_pos hd]
  simp only [Except.ok_bind, hv, he]
  cases m.verdict <;> rfl

-- Whatever the text, the arities of what is read from it are right. The text of a model whose own
-- are not is refused, for the first node in the order that is wrong.
theorem read_saturated :
    (∀ (s : String) (m : Model), read s = .ok m → m.Everywhere Saturated)
    ∧ ∀ m : Model, m.IndicesFit → Json.nesting m.write ≤ 127 → ¬m.Everywhere Saturated →
      ∃ before n after e, m.postorder = before ++ n :: after ∧ (∀ k ∈ before, k.Saturated)
        ∧ n.violation? = some e ∧ read m.write = .error (.inconsistent e) := by
  refine ⟨fun s m => everywhere_read, fun m hi hn hs => ?_⟩
  rw [← firstViolation?_eq_none_iff, ← ne_eq, Option.ne_none_iff_exists'] at hs
  have ⟨e, he⟩ := hs
  have ⟨before, n, after, hm, hne, hb⟩ := List.findSome?_eq_some_iff.mp he
  refine ⟨before, n, after, e, hm, fun k hk => violation?_eq_none_iff.mp (hb k hk), hne, ?_⟩
  rw [read_write_eq_verdict hi hn, verdict, he]
  rfl

-- A list of void whose members are out of order and have an unknown one among them, with arrays for
-- the models in it. And a list without arguments that is given one: a variable with an argument. The
-- inner list is complete before the variable.
theorem read_saturated_list :
    let elem : TypeParam := ⟨.cls WellKnown.list, 0, "E"⟩
    let list := cls ⟨.list, WellKnown.list, none, [elem]⟩
    let s := r#"{"args":[["void"]],"more":1,"shape":"parameterized","#
      ++ r#""raw":["class","LIST","java.util.List",null,"#
      ++ r#"[[["class","java.util.List"],0,"E"]]]}"#
    let m := applied (applied list []) [applied (typeVar elem) [void]]
    (read s = .ok (applied list [void]) ∧ (applied list [void]).Everywhere Saturated)
    ∧ m.IndicesFit ∧ Json.nesting m.write ≤ 127 ∧ ¬m.Everywhere Saturated
    ∧ read m.write = .error (.inconsistent (.arityMismatch WellKnown.list 1 0)) := by
  intro elem list s m
  have hr : read s = .ok (applied list [void]) := by decide +kernel
  have hi : m.IndicesFit := by
    have he : elem.Fits := Nat.two_pow_pos 64
    have hl : list.IndicesFit := .of_leaf (List.forall_mem_singleton.mpr he) trivial
    have hv : (typeVar elem).IndicesFit := .of_leaf (List.forall_mem_singleton.mpr he) trivial
    have ha : (applied (typeVar elem) [void]).IndicesFit :=
      .of_applied nofun hv (List.forall_mem_singleton.mpr (.of_leaf nofun trivial))
    exact .of_applied nofun (.of_applied nofun hl nofun) (List.forall_mem_singleton.mpr ha)
  have hn : Json.nesting m.write ≤ 127 := by
    rw [write, Json.nesting_text (toValue_plain hi)]
    decide
  have hf : m.firstViolation? = some (.arityMismatch WellKnown.list 1 0) := rfl
  have hs : ¬m.Everywhere Saturated := by simp [← firstViolation?_eq_none_iff, hf]
  obtain ⟨before, n, after, e, hm, hb, hv, he⟩ := read_saturated.right m hi hn hs
  have hf' : m.firstViolation? = some e := List.findSome?_eq_some_iff.mpr
    ⟨before, n, after, hm, hv, fun k hk => violation?_eq_none_iff.mpr (hb k hk)⟩
  obtain rfl := Option.some.inj (hf.symm.trans hf')
  exact ⟨⟨hr, read_saturated.left s _ hr⟩, hi, hn, hs, he⟩

end Model

end ApiSurface
