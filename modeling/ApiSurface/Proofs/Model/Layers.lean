import ApiSurface.Proofs.Build.Consistency
import ApiSurface.Proofs.Model.Arity

namespace ApiSurface.Model

-- Models are built, read, or made of other models.
inductive Made : Model → Prop
  | built {R : Registry} {t m} : R.build t = .ok m → Made m
  | read {s m}                 : read s = .ok m → Made m
  | applied {raw args m}       : Made raw → (∀ a ∈ args, Made a) → raw.applyTo? args = .ok m →
    Made m

-- The model without all of its type arguments.
def core : Model → Model
  | applied raw _ => core raw
  | m             => m

-- A model that is its class as soon as one layer of type arguments is taken off.
structure Unlayered (m : Model) : Prop where
  raw_isClass   : m.isApplied → m.raw.isClass
  raw_unapplied : m.raw.isApplied = false
  raw_raw       : m.raw.raw = m.raw
  slots         : ∀ info slots, m.core = api info slots → m.slots? = some slots

variable {m raw : Model} {args : List Model} {info : ClassInfo}

theorem core_of_unapplied (h : m.isApplied = false) : m.core = m := by
  cases m
  case applied => contradiction
  all_goals rfl

theorem raw_of_unapplied (h : m.isApplied = false) : m.raw = m := by
  cases m
  case applied => contradiction
  all_goals rfl

theorem core_raw (m : Model) : m.raw.core = m.core := by
  cases m <;> rfl

theorem info?_core (m : Model) : m.core.info? = m.info? := by
  induction m
  case applied raw args hr _ => exact hr
  all_goals rfl

theorem isApplied_core (m : Model) : m.core.isApplied = false := by
  induction m
  case applied raw args hr _ => exact hr
  all_goals rfl

theorem isClass_of_info? (h : m.isApplied = false) (hi : m.info? = some info) : m.isClass := by
  cases m
  case cls | api | valueObject | enumeration => rfl
  all_goals contradiction

-- Whatever has a class has it below all layers.
theorem isClass_core (h : m.info? = some info) : m.core.isClass :=
  isClass_of_info? (isApplied_core m) (info?_core m ▸ h)

theorem raw_ne_self (h : m.isApplied) : m.raw ≠ m := by
  cases m
  case applied raw args =>
    intro he
    have hs : sizeOf raw = sizeOf (applied raw args) := congrArg sizeOf he
    simp at hs
    omega
  all_goals contradiction

theorem unlayered_iff (h : m.Saturated) : m.Unlayered ↔ m.raw.isApplied = false := by
  constructor
  case mp  => exact Unlayered.raw_unapplied
  case mpr =>
    intro hr
    exact {
      raw_isClass   := fun ha => by
        cases m
        case applied =>
          obtain ⟨info, hi, _⟩ := h
          exact isClass_of_info? hr hi
        all_goals contradiction
      raw_unapplied := hr
      raw_raw       := raw_of_unapplied hr
      slots         := fun info slots hc => by
        rw [← core_raw, core_of_unapplied hr] at hc
        rw [slots?, hc] }

theorem saturated_of_unapplied (h : m.isApplied = false) : m.Saturated := by
  cases m
  case applied => contradiction
  all_goals trivial

theorem saturated_of_applyTo? (h : raw.applyTo? args = .ok m) : m.Saturated := by
  obtain ⟨rfl, _⟩ := applyTo?_eq_ok_iff.mp h
  exact saturated_of_applies h

theorem isApplied_of_isLeaf (h : m.IsLeaf) : m.isApplied = false := by
  cases m
  case applied => exact h.elim
  all_goals rfl

theorem isApplied_of_isClass (h : m.isClass) : m.isApplied = false := by
  cases m
  case applied => contradiction
  all_goals rfl

-- What is built has at most one layer everywhere.
theorem everywhere_unlayered_of_build {R : Registry} {t : TypeRef} (h : R.build t = .ok m) :
    m.Everywhere fun n => n.Saturated ∧ n.Unlayered := by
  have hu {n : Model} (hn : n.isApplied = false) : n.Saturated ∧ n.Unlayered := by
    have hs := saturated_of_unapplied hn
    exact ⟨hs, (unlayered_iff hs).mpr (by rw [raw_of_unapplied hn, hn])⟩
  rw [Registry.build_eq_buildIn] at h
  refine Registry.everywhere_of_buildIn ?leaf ?named ?applied h
  case leaf    => exact fun _ _ _ ht h => hu (isApplied_of_isLeaf (Registry.isLeaf_of_buildIn ht h))
  case named   =>
    exact fun _ _ _ h => hu (isApplied_of_isClass (Registry.consistent_of_buildIn_named h).left)
  case applied =>
    intro _ _ raw args m hr h
    have hs := saturated_of_applyTo? h
    obtain ⟨rfl, _⟩ := applyTo?_eq_ok_iff.mp h
    exact ⟨hs, (unlayered_iff hs).mpr
      (isApplied_of_isClass (Registry.consistent_of_buildIn_named hr).left)⟩

theorem everywhere_saturated_of_made (h : Made m) : m.Everywhere Saturated := by
  induction h
  case built h => exact fun n hn => (everywhere_unlayered_of_build h n hn).left
  case read h  => exact everywhere_read h
  case applied raw args m _ _ h hr ha =>
    have hs := saturated_of_applyTo? h
    obtain ⟨rfl, _⟩ := applyTo?_eq_ok_iff.mp h
    exact .of_applied hs hr ha

-- Below all layers of any node is a class. It is found by taking off one layer exactly if that was
-- the last one, as it is in every model that is built; otherwise the slots of the class are not
-- found.
theorem layers_of_made (h : Made m) :
    (m.Everywhere fun n => (n.isApplied → n.core.isClass)
      ∧ (n.Unlayered ↔ n.raw.isApplied = false)
      ∧ (n.raw.isApplied → n.raw.raw ≠ n.raw ∧ n.slots? = none))
    ∧ ∀ (R : Registry) (t : TypeRef), R.build t = .ok m → m.Everywhere Unlayered := by
  constructor
  case left =>
    intro n hn
    have hs : n.Saturated := everywhere_saturated_of_made h n hn
    refine ⟨fun ha => ?_, unlayered_iff hs, fun ha => ⟨raw_ne_self ha, ?_⟩⟩
    · cases n
      case applied =>
        obtain ⟨info, hi, _⟩ := hs
        exact isClass_core hi
      all_goals contradiction
    · rw [slots?]
      cases hr : n.raw
      case api => rw [hr] at ha; contradiction
      all_goals rfl
  case right => exact fun R t hb n hn => (everywhere_unlayered_of_build hb n hn).right

-- The model of a stream of strings is given a string once more. It is not even the model of a class
-- with one layer less, and the slots of the stream are out of sight.
theorem not_unlayered_pipe :
    let home : Option ModuleRef := some ⟨"com.acme", "acme", "com.acme"⟩
    let elem : TypeParam := ⟨.cls "com.acme.api.Pipe", 0, "T"⟩
    let info : ClassInfo := ⟨.api, "com.acme.api.Pipe", home, [elem]⟩
    let slots : Slots Model :=
      { readStream := some (typeVar elem), writeStream := some (typeVar elem) }
    let string := cls ⟨.string, WellKnown.string, none, []⟩
    let m := applied (applied (api info slots) [string]) [string]
    Made m ∧ m.raw.isClass = false ∧ m.raw.isApplied ∧ m.raw.raw ≠ m.raw
      ∧ m.core = api info slots ∧ m.slots? = none ∧ ¬m.Everywhere Unlayered := by
  intro home elem info slots string m
  have hp : Registry.sample.build (.applied "com.acme.api.Pipe" [.named WellKnown.string])
      = .ok (applied (api info slots) [string]) := by rfl
  have hs : Registry.sample.build (.named WellKnown.string) = .ok string := by rfl
  have hm : Made m := .applied (.built hp) (List.forall_mem_singleton.mpr (.built hs)) rfl
  have hr : m.raw.isApplied := rfl
  exact ⟨hm, rfl, hr, raw_ne_self rfl, rfl, rfl, fun h => by simp [h.self.raw_unapplied] at hr⟩

-- The same of a list that is read from a text.
theorem layers_of_made_list :
    let list := cls ⟨.list, WellKnown.list, none, [⟨.cls WellKnown.list, 0, "E"⟩]⟩
    let s := r#"{"shape":"parameterized","raw":["parameterized",["class","LIST","#
      ++ r#""java.util.List",null,[[["class","java.util.List"],0,"E"]]],[["void"]]],"#
      ++ r#""args":[["void"]]}"#
    let m := applied (applied list [void]) [void]
    read s = .ok m ∧ m.core.isClass ∧ ¬m.Unlayered ∧ m.raw.Unlayered := by
  intro list s m
  have hr : read s = .ok m := by
    rw [read, String.toList_append, String.toList_append]
    repeat rw [String.toList_ofList]
    decide +kernel
  obtain ⟨hm, _⟩ := layers_of_made (.read hr)
  obtain ⟨hc, hu, _⟩ := hm m .self
  obtain ⟨_, hv, _⟩ := hm m.raw (.raw .self)
  exact ⟨hr, hc rfl, fun h => Bool.noConfusion (hu.mp h), hv.mpr rfl⟩

end ApiSurface.Model
