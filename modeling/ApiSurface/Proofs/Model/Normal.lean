import ApiSurface.Proofs.Model.Arity

namespace ApiSurface

open Json (Fields Value)

theorem ParamOwner.depth_le_of_ofValue {v : Value} {o : ParamOwner} (h : ofValue v = .ok o) :
    o.toValue.depth ≤ v.depth := by
  obtain ⟨⟨form, content⟩, hu, _⟩ := Except.bind_eq_ok.mp h
  obtain ⟨hp, hd⟩ := Value.depth_of_untag hu
  have ho : o.toValue.depth = 1 := by cases o <;> rfl
  omega

theorem TypeParam.fits_of_ofValue {v : Value} {p : TypeParam} (h : ofValue v = .ok p) :
    p.Fits ∧ p.toValue.depth ≤ v.depth := by
  obtain ⟨⟨owner, index, name⟩, hr, he⟩ := Except.bind_eq_ok.mp h
  cases he
  obtain ⟨ho, hi, _⟩ := Fields.given_of_read hr
  obtain ⟨u, hu, ho⟩ := Fields.given_required ho
  obtain ⟨w, hw, hi⟩ := Fields.given_required hi
  have ho := ParamOwner.depth_le_of_ofValue ho
  have hp := Fields.depth_pos_of_read hr
  constructor
  case left  => exact Value.lt_wordLimit_of_asNatural hi
  case right =>
    rw [toValue, Value.depth_object_le_iff]
    simpa [Value.depth, Value.natural, hp] using Nat.lt_of_le_of_lt ho hu

theorem ModuleRef.depth_le_of_ofValue {v : Value} {m : ModuleRef} (h : ofValue v = .ok m) :
    m.toValue.depth ≤ v.depth := by
  obtain ⟨_, hr, _⟩ := Except.bind_eq_ok.mp h
  exact Fields.depth_pos_of_read hr

theorem ClassInfo.fits_of_ofValue {v : Value} {i : ClassInfo} (h : ofValue v = .ok i) :
    (∀ p ∈ i.params, p.Fits) ∧ i.toValue.depth ≤ v.depth := by
  obtain ⟨⟨kind, name, home, params⟩, hr, he⟩ := Except.bind_eq_ok.mp h
  cases he
  obtain ⟨_, _, hh, hp⟩ := Fields.given_of_read hr
  obtain ⟨w, hw, hp⟩ := Fields.given_required hp
  have hd := Fields.depth_pos_of_read hr
  constructor
  case left =>
    intro p hm
    obtain ⟨_, _, hp⟩ := Value.exists_of_asList hp p hm
    exact (TypeParam.fits_of_ofValue hp).left
  case right =>
    have hp := Value.depth_le_of_asList hp fun _ _ _ hp => (TypeParam.fits_of_ofValue hp).right
    have hh : ((home.map ModuleRef.toValue).getD .null).depth < v.depth := by
      cases home
      case none   => exact hd
      case some m =>
        obtain ⟨u, hu, hm⟩ := Fields.given_optional hh rfl
        exact Nat.lt_of_le_of_lt (ModuleRef.depth_le_of_ofValue hm) hu
    rw [toValue, Value.depth_object_le_iff]
    simpa [members, Kind.toValue, Value.depth, hd, hh] using Nat.lt_of_le_of_lt hp hw

theorem ClassInfo.fits_of_given {key : String} {d : Nat} {i : ClassInfo}
    (h : (Fields.required key ofValue).Given (·.depth < d) i) :
    (∀ p ∈ i.params, p.Fits) ∧ i.toValue.depth < d := by
  obtain ⟨v, hv, hi⟩ := Fields.given_required h
  obtain ⟨hf, hi⟩ := fits_of_ofValue hi
  exact ⟨hf, Nat.lt_of_le_of_lt hi hv⟩

namespace Model

variable {m : Model} {shape : Shape} {v : Value} {ms : List (String × Value)} {d : Nat}

theorem depth_tagged_le_iff :
    (tagged shape ms).depth ≤ d ↔ 0 < d ∧ ∀ m ∈ ms, m.2.depth < d := by
  rw [tagged, Value.depth_object_le_iff, List.forall_mem_cons]
  exact and_congr_right fun hd => and_iff_right hd

theorem depth_slotMembers_le_iff {slots : Slots Model} :
    (Value.object (slotMembers slots)).depth ≤ d
      ↔ 0 < d ∧ ∀ slot m, slots.get slot = some m → m.toValue.depth < d := by
  have hs (slot : Slot) (hd : 0 < d) : (slotValueOf slots slot).depth < d
      ↔ ∀ m, slots.get slot = some m → m.toValue.depth < d := by
    rw [slotValueOf]
    cases slots.get slot <;> simp [Value.depth, hd]
  rw [Value.depth_object_le_iff, slotMembers_eq_map, List.forall_mem_map]
  exact and_congr_right fun hd => by simp [hs _ hd, Slot.mem_all]

section Inner

-- What is known of the models that are read within a value.
variable {inner : Value → Except Fault Model}
  (hn : ∀ w m, inner w = .ok m → m.IndicesFit ∧ m.toValue.depth ≤ w.depth)

include hn

theorem fits_of_ofSlots {slots : Slots Model} (h : Slots.ofValue inner v = .ok slots) :
    (∀ slot m, slots.get slot = some m → m.IndicesFit)
    ∧ (Value.object (slotMembers slots)).depth ≤ v.depth := by
  have hs (slot m) (hm : slots.get slot = some m) : m.IndicesFit ∧ m.toValue.depth < v.depth := by
    obtain ⟨w, hw, hm⟩ := Slots.exists_of_ofValue h hm
    obtain ⟨hf, hm⟩ := hn w m hm
    exact ⟨hf, Nat.lt_of_le_of_lt hm hw⟩
  obtain ⟨_, hr, _⟩ := Except.bind_eq_ok.mp h
  refine ⟨fun slot m hm => (hs slot m hm).left, depth_slotMembers_le_iff.mpr ?_⟩
  exact ⟨Fields.depth_pos_of_read hr, fun slot m hm => (hs slot m hm).right⟩

theorem fits_of_ofShape (hd : 0 < v.depth)
    (h : ofShape inner v shape = .ok m) : m.IndicesFit ∧ m.toValue.depth ≤ v.depth := by
  cases shape
  case void =>
    simp only [ofShape] at h
    split at h <;> cases h
    exact ⟨.of_leaf (List.forall_mem_nil _) trivial, hd⟩
  case primitive =>
    obtain ⟨_, _, he⟩ := Except.bind_eq_ok.mp h
    cases he
    exact ⟨.of_leaf (List.forall_mem_nil _) trivial, hd⟩
  case cls =>
    obtain ⟨info, hi, he⟩ := Except.bind_eq_ok.mp h
    cases he
    obtain ⟨hf, hi⟩ := ClassInfo.fits_of_ofValue hi
    refine ⟨.of_leaf hf trivial, ?_⟩
    rwa [toValue, depth_tagged_le_iff, ← Value.depth_object_le_iff]
  case api =>
    obtain ⟨⟨info, slots⟩, hr, he⟩ := Except.bind_eq_ok.mp h
    cases he
    obtain ⟨hi, hs⟩ := Fields.given_of_read hr
    obtain ⟨hf, hi⟩ := ClassInfo.fits_of_given hi
    obtain ⟨w, hw, hs⟩ := Fields.given_required hs
    obtain ⟨hfs, hs⟩ := fits_of_ofSlots hn hs
    refine ⟨.of_api hf hfs, ?_⟩
    rw [toValue, depth_tagged_le_iff]
    simpa [hd] using ⟨hi, Nat.lt_of_le_of_lt hs hw⟩
  case valueObject =>
    obtain ⟨⟨info, isAbstract⟩, hr, he⟩ := Except.bind_eq_ok.mp h
    cases he
    obtain ⟨hi, _⟩ := Fields.given_of_read hr
    obtain ⟨hf, hi⟩ := ClassInfo.fits_of_given hi
    refine ⟨.of_leaf hf trivial, ?_⟩
    rw [toValue, depth_tagged_le_iff]
    simpa [hd, Value.depth] using hi
  case enumeration =>
    obtain ⟨⟨info, constants⟩, hr, he⟩ := Except.bind_eq_ok.mp h
    cases he
    obtain ⟨hi, hc⟩ := Fields.given_of_read hr
    obtain ⟨hf, hi⟩ := ClassInfo.fits_of_given hi
    obtain ⟨w, hw, hc⟩ := Fields.given_required hc
    have hc : (Value.array (constants.map .string)).depth ≤ w.depth :=
      Value.depth_le_of_asList hc fun _ _ _ _ => Nat.zero_le _
    refine ⟨.of_leaf hf trivial, ?_⟩
    rw [toValue, depth_tagged_le_iff]
    simpa [hd] using ⟨hi, Nat.lt_of_le_of_lt hc hw⟩
  case applied =>
    obtain ⟨⟨raw, args⟩, hr, he⟩ := Except.bind_eq_ok.mp h
    obtain ⟨hraw, hargs⟩ := Fields.given_of_read hr
    obtain ⟨u, hu, hraw⟩ := Fields.given_required hraw
    obtain ⟨w, hw, hargs⟩ := Fields.given_required hargs
    obtain ⟨rfl, _⟩ := applyTo?_eq_ok_iff.mp (Except.mapError_eq_ok.mp he)
    obtain ⟨hf, hraw⟩ := hn u raw hraw
    have has := Value.depth_le_of_asList hargs fun w a _ ha => (hn w a ha).right
    refine ⟨.of_applied (List.forall_mem_nil _) hf fun a ha => ?arg, ?depth⟩
    case arg =>
      obtain ⟨x, _, ha⟩ := Value.exists_of_asList hargs a ha
      exact (hn x a ha).left
    case depth =>
      rw [toValue, toValueList_eq_map, depth_tagged_le_iff]
      simpa [hd] using ⟨Nat.lt_of_le_of_lt hraw hu, Nat.lt_of_le_of_lt has hw⟩
  case typeVar =>
    obtain ⟨param, hr, he⟩ := Except.bind_eq_ok.mp h
    cases he
    obtain ⟨u, hu, hp⟩ := Fields.given_required (Fields.given_of_read hr)
    obtain ⟨hf, hp⟩ := TypeParam.fits_of_ofValue hp
    refine ⟨.of_leaf (List.forall_mem_singleton.mpr hf) trivial, ?_⟩
    rw [toValue, depth_tagged_le_iff]
    simpa [hd] using Nat.lt_of_le_of_lt hp hu

end Inner

theorem fits_of_ofValueWithin (h : ofValueWithin d v = .ok m) :
    m.IndicesFit ∧ m.toValue.depth ≤ v.depth := by
  induction d generalizing v m
  case zero      => cases h
  case succ d hi =>
    obtain ⟨⟨shape, content⟩, hu, h⟩ := Except.bind_eq_ok.mp h
    obtain ⟨hp, hd⟩ := Value.depth_of_untag hu
    obtain ⟨hf, hm⟩ := fits_of_ofShape (fun _ _ => hi) hp h
    exact ⟨hf, Nat.le_trans hm hd⟩

-- What a model is read from is a text of some value, and the model is in the value.
theorem exists_of_read {s : String} (h : read s = .ok m) :
    ∃ v, v.IsText s ∧ v.depth ≤ Json.maxDepth ∧ ofValue v = .ok m := by
  obtain ⟨⟨v, rest⟩, hr, h⟩ := Except.bind_eq_ok.mp h
  obtain ⟨_, hv, h⟩ := Except.bind_eq_ok.mp h
  obtain ⟨_, he, h⟩ := Except.bind_eq_ok.mp h
  cases h
  obtain ⟨hw, hd⟩ := written_of_readOuter hr
  exact ⟨v, Value.isText_iff.mpr ⟨rest, hw, Json.expectEnd_eq_ok_iff.mp he⟩, hd, hv⟩

-- The text of what has been read is the normal form of the text it was read from.
theorem read_normal {s : String} (h : read s = .ok m) :
    Json.nesting m.write ≤ Json.nesting s ∧ read m.write = .ok m
    ∧ (read m.write).map write = .ok m.write := by
  obtain ⟨v, ht, hd, hv⟩ := exists_of_read h
  obtain ⟨hi, hm⟩ := fits_of_ofValueWithin hv
  have hn : Json.nesting m.write ≤ Json.nesting s := by
    rw [write, Json.nesting_text (toValue_plain hi), Json.nesting_of_isText ht]
    exact hm
  have hr : read m.write = .ok m := by
    have hl : Json.nesting m.write ≤ 127 := by
      rw [Json.nesting_of_isText ht] at hn
      exact Nat.le_trans hn hd
    rw [read_write_eq_verdict hi hl]
    exact verdict_eq_ok_iff.mpr ⟨rfl, everywhere_read h⟩
  exact ⟨hn, hr, by rw [hr]; rfl⟩

-- A list of void in a text with blanks, whose tags come last: the arguments and the type parameter
-- are arrays, the kind is an object, a letter is escaped and there is an unknown member.
theorem read_normal_list :
    let s := r#" { "args" : [["void"]], "more": [{}, 1e2], "#
      ++ r#""raw": {"kind": {"LIST": null}, "#
      ++ r#""typeParams": [[["class", "java.util.List"], 0, "\u0045"]], "#
      ++ r#""name": "java.util.List", "shape": "class"}, "shape": "parameterized"}"# ++ "\n"
    let m := applied (cls ⟨.list, WellKnown.list, none, [⟨.cls WellKnown.list, 0, "E"⟩]⟩) [void]
    read s = .ok m ∧ Json.nesting m.write ≤ Json.nesting s ∧ read m.write = .ok m
    ∧ (read m.write).map write = .ok m.write := by
  intro s m
  have hr : read s = .ok m := by
    rw [read]
    iterate 4 rw [String.toList_append]
    iterate 5 rw [String.toList_ofList]
    decide +kernel
  exact ⟨hr, read_normal hr⟩

end Model

end ApiSurface
