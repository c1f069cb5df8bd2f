import ApiSurface.Proofs.Build.Faithful

namespace ApiSurface

-- `Prints t m` means that `m` is written as `t`, with the name of the declaration if `t` refers to
-- one, and that the same holds of their arguments, one by one.
inductive Prints : TypeRef → Model → Prop
  | intro {t : TypeRef} {m : Model} : m.display = t.display →
      (∀ name, t.declaration? = some name → m.raw.name = name) →
      List.Forall₂ Prints t.args m.args → Prints t m

namespace Model

variable {m : Model}

theorem unapplied_of_isClass (h : m.isClass) : m.display = m.name ∧ m.raw = m ∧ m.args = [] := by
  cases m
  case cls | api | valueObject | enumeration => exact ⟨rfl, rfl, rfl⟩
  all_goals contradiction

end Model

namespace Prints

variable {t : TypeRef} {m raw : Model} {args : List TypeRef} {ms : List Model}

theorem display (h : Prints t m) : m.display = t.display := by
  cases h
  assumption

theorem named (h : m.isClass) : Prints (.named m.name) m := by
  have ⟨hd, hr, ha⟩ := Model.unapplied_of_isClass h
  refine .intro hd ?_ (ha ▸ .nil)
  rintro _ ⟨⟩
  rw [hr]

theorem applied (h : raw.isClass) (ha : List.Forall₂ Prints args ms) :
    Prints (.applied raw.name args) (.applied raw ms) := by
  refine .intro ?_ ?_ ha
  case refine_1 =>
    have hm : ms.map Model.display = args.map TypeRef.display := by
      rw [← List.forall₂_eq_eq_eq, List.forall₂_map_left_iff, List.forall₂_map_right_iff]
      exact ha.flip.imp fun _ _ h => h.display
    rw [Model.display, TypeRef.display, Model.displayList_eq_map, TypeRef.displayList_eq_map, hm,
      (Model.unapplied_of_isClass h).left]
  case refine_2 =>
    rintro _ ⟨⟩
    rfl

end Prints

namespace Registry

variable {R : Registry} {opened : List String} {name : String} {t : TypeRef} {m : Model}

theorem prints_of_buildIn_named (h : R.buildIn opened (.named name) = .ok m) :
    Prints (.named name) m := by
  obtain rfl := name_of_buildIn_named h
  exact .named (consistent_of_buildIn_named h).left

theorem prints_of_buildIn (h : R.buildIn opened t = .ok m) : Prints t m := by
  induction t generalizing m
  case named name             => exact prints_of_buildIn_named h
  case applied name args hi   =>
    have ⟨ms, ha, raw, hr, hm⟩ := buildIn_applied_eq_ok_iff.mp h
    obtain ⟨rfl, _⟩ := Model.applyTo?_eq_ok_iff.mp hm
    obtain rfl := name_of_buildIn_named hr
    have ha := (List.forall₂_and_left _ _).mpr ⟨hi, Except.mapM_eq_ok_iff.mp ha⟩
    exact .applied (consistent_of_buildIn_named hr).left <| ha.imp fun _ _ ⟨hi, h⟩ => hi h
  -- What is left refers to no declaration and has no arguments.
  all_goals
    cases reflects_of_buildIn h <;> exact .intro rfl (by rintro _ ⟨⟩) .nil

-- What the slots of a model hold is written as the types that its interface binds on them.
def Labels (R : Registry) (m : Model) : Prop :=
  ∀ slots, m.slots? = some slots → ∀ slot n, slots.get slot = some n →
    ∃ u, R.resolve (.named m.name) slot.capability slot.index = some u ∧ Prints u n

theorem labels_of_isLeaf (h : m.IsLeaf) : R.Labels m := by
  intro slots hs
  cases m
  case api     => exact h.elim
  case applied => exact h.elim
  all_goals cases hs

theorem labels_of_buildIn_named (h : R.buildIn opened (.named name) = .ok m) : R.Labels m := by
  have hn : m.name = name := name_of_buildIn_named h
  cases buildIn_named_iff.mp h
  case plain d hd hk           => exact labels_of_isLeaf isLeaf_plainModel
  case closed d hd hk hm       =>
    rintro _ ⟨⟩ slot n hg
    simp at hg
  case api d slots hd hk hm hs =>
    rintro _ ⟨⟩ slot n hg
    have ⟨u, hu, hb⟩ := Option.exists_left_of_rel (hs slot) hg
    exact ⟨u, hn ▸ hu, prints_of_buildIn hb⟩

-- Arguments leave the slots as they are.
theorem labels_of_applyTo? {raw : Model} {args : List Model} (hr : raw.isClass)
    (hl : R.Labels raw) (h : raw.applyTo? args = .ok m) : R.Labels m := by
  obtain ⟨rfl, _⟩ := Model.applyTo?_eq_ok_iff.mp h
  intro slots hs
  refine hl slots ?_
  rw [Model.slots?, (Model.unapplied_of_isClass hr).right.left]
  exact hs

theorem everywhere_labels (h : R.buildIn opened t = .ok m) : m.Everywhere R.Labels := by
  refine everywhere_of_buildIn ?leaf ?named ?applied h
  case leaf    => exact fun _ _ _ ht h => labels_of_isLeaf (isLeaf_of_buildIn ht h)
  case named   => exact fun _ _ _ h => labels_of_buildIn_named h
  case applied =>
    intro opened name raw args m hr h
    exact labels_of_applyTo? (consistent_of_buildIn_named hr).left (labels_of_buildIn_named hr) h

-- A model is written as its reference and has the name of its declaration, whatever else the
-- registry says of it, and so it is with the arguments at every depth. What the slots in it hold is
-- written as the types that their interfaces bind.
theorem display_of_build (h : R.build t = .ok m) :
    m.display = t.display
    ∧ (∀ name, t.declaration? = some name → m.raw.name = name)
    ∧ List.Forall₂ Prints t.args m.args
    ∧ m.Everywhere R.Labels := by
  rw [build_eq_buildIn] at h
  have ⟨hd, hn, ha⟩ := prints_of_buildIn h
  exact ⟨hd, hn, ha, everywhere_labels h⟩

-- Streams of what was an enumeration, until an API interface took its place.
theorem display_of_build_replaced :
    let color  := "com.acme.model.Color"
    let R      := sample.register { name := color, flags := { api := true } }
    let stream := TypeRef.applied "com.acme.api.Pipe" [.named color]
    let t      := TypeRef.applied WellKnown.map [.named WellKnown.string, stream]
    ∃ m, R.build t = .ok m
      ∧ m.display = "java.util.Map<java.lang.String,com.acme.api.Pipe<com.acme.model.Color>>"
      ∧ m.raw.name = "java.util.Map" := by
  intro color R stream t
  have ⟨m, hm⟩ : ∃ m, R.build t = .ok m := Except.isOk_iff.mp (by rfl)
  have ⟨hd, hn, _⟩ := display_of_build hm
  exact ⟨m, hm, hd.trans (by decide), hn _ rfl⟩

end Registry

end ApiSurface
