import ApiSurface.Model.Encoding
import ApiSurface.Proofs.Json.Fields
import ApiSurface.Proofs.Json.Nesting
import ApiSurface.Proofs.Model.Outermost
import ApiSurface.Proofs.Model.Postorder

namespace ApiSurface

open Json (Fields Value)

-- The positions of type parameters have to fit 64 bits.
def TypeParam.Fits (p : TypeParam) : Prop :=
  p.index < Json.Numeral.wordLimit

theorem Kind.ofMember_toValue (k : Kind) : ofMember k.toValue = .ok k := by
  simp [ofMember, toValue, ofValue]

theorem ParamOwner.tagOf?_label (f : Form) :
    tagOf? Form.all Form.label (.string f.label) = some f := by
  cases f <;> decide

theorem ParamOwner.ofValue_toValue (o : ParamOwner) : ofValue o.toValue = .ok o := by
  have hu (f : Form) {ms : List (String × Value)} (hm : "kind" ∉ ms.map (·.1)) :=
    Value.untag_object (tagOf?_label f) hm
  cases o
  all_goals
    rw [ofValue, toValue, hu _ (by simp)]
    simp only [Except.ok_bind]
    rw [Fields.read_object (by decide) rfl]
    rfl

theorem TypeParam.ofValue_toValue {p : TypeParam} (h : p.Fits) : ofValue p.toValue = .ok p := by
  have ho := p.owner.ofValue_toValue
  have hi : Value.asNatural (.natural p.index) = .ok p.index := by
    simp [Value.asNatural, Value.natural, Json.Numeral.natural?_ofNat h]
  simp only [ofValue, toValue]
  rw [Fields.read_object (by decide) rfl]
  simp [Fields.read, Fields.take_both, Fields.take_required, ho, hi, Value.asString]

theorem ModuleRef.ofValue_toValue (m : ModuleRef) : ofValue m.toValue = .ok m := by
  simp only [ofValue, toValue]
  rw [Fields.read_object (by decide) rfl]
  simp [Fields.read, Fields.take_both, Fields.take_required, Value.asString]

theorem ClassInfo.ofValue_toValue {i : ClassInfo} (h : ∀ p ∈ i.params, p.Fits) :
    ofValue i.toValue = .ok i := by
  have hk := i.kind.ofMember_toValue
  have hh : ∀ m ∈ i.home, ModuleRef.ofValue m.toValue = .ok m := fun m _ => m.ofValue_toValue
  have hn : ∀ m : ModuleRef, m.toValue ≠ .null := fun _ => by simp [ModuleRef.toValue]
  have hp : Value.asList TypeParam.ofValue (.array (i.params.map TypeParam.toValue))
      = .ok i.params :=
    Value.asList_map fun p hp => TypeParam.ofValue_toValue (h p hp)
  simp only [ofValue, toValue, members]
  rw [Fields.read_object (by decide) rfl]
  simp [Fields.read, Fields.take_both, Fields.take_required, Fields.take_optional hh hn, hk, hp,
    Value.asString]

theorem ParamOwner.toValue_plain (o : ParamOwner) : o.toValue.Plain := by
  cases o <;> exact .object (by simp [Value.Plain.string])

theorem TypeParam.toValue_plain {p : TypeParam} (h : p.Fits) : p.toValue.Plain :=
  .object (by simp [p.owner.toValue_plain, Value.Plain.natural h, Value.Plain.string])

theorem ModuleRef.toValue_plain (m : ModuleRef) : m.toValue.Plain :=
  .object (by simp [Value.Plain.string])

theorem ClassInfo.members_plain {i : ClassInfo} (h : ∀ p ∈ i.params, p.Fits) :
    ∀ m ∈ i.members, m.2.Plain := by
  have hh : ((i.home.map ModuleRef.toValue).getD .null).Plain := by
    cases i.home
    case none   => exact .null
    case some m => exact m.toValue_plain
  have hp : (Value.array (i.params.map TypeParam.toValue)).Plain :=
    .array (by simpa using fun p hp => TypeParam.toValue_plain (h p hp))
  simp [members, Kind.toValue, Value.Plain.string, hh, hp]

namespace Slot

-- The key of a slot in an encoded model.
def key : Slot → String
  | readStream  => "readStreamArg"
  | writeStream => "writeStreamArg"
  | handler     => "handlerArg"
  | iterable    => "iterableArg"
  | iterator    => "iteratorArg"
  | functionIn  => "functionArgIn"
  | functionOut => "functionArgOut"

end Slot

namespace Model

-- The positions that a model names fit 64 bits.
def IndicesFit (m : Model) : Prop :=
  m.Everywhere fun n => ∀ p ∈ n.ownParams, p.Fits

variable {m : Model} {n : Nat} {shape : Shape} {ms : List (String × Value)}

def slotValueOf (slots : Slots Model) (slot : Slot) : Value :=
  ((slots.get slot).map toValue).getD .null

theorem slotMembers_eq_map (slots : Slots Model) :
    slotMembers slots = Slot.all.map fun slot => (slot.key, slotValueOf slots slot) := by
  obtain ⟨_, _, _, _, _, _, _⟩ := slots
  simp [slotMembers, slotValue_eq, slotValueOf, Slots.get, Slot.all, Slot.key]

theorem toValue_ne_null (m : Model) : m.toValue ≠ .null := by
  cases m <;> simp [toValue, tagged]

theorem ofValue_slots {slots : Slots Model} {inner : Value → Except Fault Model} :
    Slots.ofValue inner (.object (slotMembers slots))
      = Slots.fill fun slot => (slots.get slot).mapM fun m => inner m.toValue := by
  have ht (key : String) (slot : Slot) (vs : List Value) :
      (Fields.optional key inner).take (slotValueOf slots slot :: vs)
        = ((slots.get slot).mapM fun m => inner m.toValue).map (·, vs) :=
    Fields.take_optional_mapM toValue_ne_null
  simp only [Slots.ofValue, slotMembers_eq_map, Slots.fill]
  rw [Fields.read_object (by simp [Fields.keys, Fields.optional]) rfl]
  simp [Fields.read, Fields.take_both, Slot.all, ht, Except.map_bind]

theorem tagOf?_label (shape : Shape) :
    tagOf? Shape.all Shape.label (.string shape.label) = some shape :=
  shape.ofLabel?_label

theorem untag_tagged (h : "shape" ∉ ms.map (·.1)) :
    (tagged shape ms).untag "shape" (tagOf? Shape.all Shape.label) = .ok (shape, .object ms) :=
  Value.untag_object (tagOf?_label shape) h

theorem ofValueWithin_tagged (h : "shape" ∉ ms.map (·.1)) :
    ofValueWithin (n + 1) (tagged shape ms) = ofShape (ofValueWithin n) (.object ms) shape := by
  simp [ofValueWithin, untag_tagged h]

theorem tagged_plain (h : ∀ m ∈ ms, m.2.Plain) : (tagged shape ms).Plain :=
  .object (by simpa [Value.Plain.string] using h)

theorem slotMembers_plain {slots : Slots Model}
    (h : ∀ slot m, slots.get slot = some m → m.toValue.Plain) :
    ∀ m ∈ slotMembers slots, m.2.Plain := by
  have hs (slot : Slot) : (slotValueOf slots slot).Plain := by
    rw [slotValueOf]
    cases hg : slots.get slot
    case none   => exact .null
    case some m => exact h slot m hg
  simp [slotMembers_eq_map, hs]

theorem toValue_plain (h : m.IndicesFit) : m.toValue.Plain := by
  induction m <;> rw [toValue] <;> apply tagged_plain
  case void                       => simp
  case primitive name boxed       => simp [Value.Plain.string]
  case cls info                   => exact info.members_plain h.self
  case api info slots hi =>
    have hs := slotMembers_plain fun slot m hm => hi slot m hm (h.slot hm)
    simp [ClassInfo.toValue, Value.Plain.object (info.members_plain h.self), Value.Plain.object hs]
  case valueObject info isAbstract =>
    simp [ClassInfo.toValue, Value.Plain.object (info.members_plain h.self), Value.Plain.bool]
  case enumeration info constants =>
    have hs : (Value.array (constants.map .string)).Plain := .array (by simp [Value.Plain.string])
    simp [ClassInfo.toValue, Value.Plain.object (info.members_plain h.self), hs]
  case applied raw args hr ha =>
    have hs : (Value.array (args.map toValue)).Plain :=
      .array (by simpa using fun a hm => ha a hm (h.arg hm))
    simp [toValueList_eq_map, hr h.raw, hs]
  case typeVar param =>
    have hp : param.Fits := h.self param (by simp [ownParams])
    simp [TypeParam.toValue_plain hp]

-- The values in an object are nested less deep than the object.
theorem depth_le_of_mem {d : Nat} {k : String} {v : Value} (h : (tagged shape ms).depth ≤ d + 1)
    (hm : (k, v) ∈ ms) : v.depth ≤ d := by
  rw [tagged, Value.depth, Nat.add_le_add_iff_right, Value.depthMembers_le_iff] at h
  exact h (k, v) (by simp [hm])

theorem depth_le_of_raw {d : Nat} {raw : Model} {args : List Model}
    (h : (applied raw args).toValue.depth ≤ d + 1) : raw.toValue.depth ≤ d :=
  depth_le_of_mem (k := "raw") (by rwa [toValue] at h) (by simp)

theorem depth_le_of_arg {d : Nat} {raw : Model} {args : List Model}
    (h : (applied raw args).toValue.depth ≤ d + 1) (hm : m ∈ args) : m.toValue.depth ≤ d := by
  rw [toValue, toValueList_eq_map] at h
  have ha := depth_le_of_mem (k := "args") (v := .array (args.map toValue)) h (by simp)
  rw [Value.depth] at ha
  exact Value.depthItems_le_iff.mp (Nat.le_of_succ_le ha) _ (List.mem_map_of_mem hm)

theorem depth_le_of_slot {d : Nat} {info : ClassInfo} {slots : Slots Model} {slot : Slot}
    (h : (api info slots).toValue.depth ≤ d + 1) (hm : slots.get slot = some m) :
    m.toValue.depth ≤ d := by
  rw [toValue] at h
  have ha := depth_le_of_mem (k := "args") (v := .object (slotMembers slots)) h (by simp)
  rw [Value.depth] at ha
  have hs : (slot.key, slotValueOf slots slot) ∈ slotMembers slots := by
    rw [slotMembers_eq_map]
    exact List.mem_map_of_mem slot.mem_all
  rw [slotValueOf, hm] at hs
  exact Value.depthMembers_le_iff.mp (Nat.le_of_succ_le ha) _ hs

-- What is read from the value of a model is the model, unless something is wrong with it.
theorem ofValueWithin_toValue_eq_verdict (hi : m.IndicesFit) (hd : m.toValue.depth ≤ n) :
    ofValueWithin n m.toValue = m.verdict := by
  induction m generalizing n <;> obtain _ | n := n
  case void.zero | primitive.zero | cls.zero | api.zero | valueObject.zero | enumeration.zero
      | applied.zero | typeVar.zero =>
    simp [toValue, tagged, Value.depth] at hd
  case void.succ =>
    rw [toValue, ofValueWithin_tagged (by simp)]
    rfl
  case primitive.succ name boxed =>
    rw [toValue, ofValueWithin_tagged (by simp)]
    simp only [ofShape]
    rw [Fields.read_object (by decide) rfl]
    rfl
  case cls.succ info =>
    have hv := ClassInfo.ofValue_toValue hi.self
    rw [ClassInfo.toValue] at hv
    rw [toValue, ofValueWithin_tagged (by simp [ClassInfo.members]), ofShape, hv]
    rfl
  case api.succ info slots ih =>
    have hv := ClassInfo.ofValue_toValue hi.self
    have hs : (fun slot => (slots.get slot).mapM fun m => ofValueWithin n m.toValue)
        = fun slot => (slots.get slot).mapM verdict := by
      funext slot
      cases hm : slots.get slot
      case none   => rfl
      case some m => simp [ih slot m hm (hi.slot hm) (depth_le_of_slot hd hm)]
    rw [toValue, ofValueWithin_tagged (by simp), verdict_api, ← hs, ← ofValue_slots]
    simp only [ofShape]
    rw [Fields.read_object (by simp [Fields.keys, Fields.required]) rfl]
    simp [Fields.read, Fields.take_both, Fields.take_required, hv, Except.map_bind]
    rfl
  case valueObject.succ info isAbstract =>
    have hv := ClassInfo.ofValue_toValue hi.self
    rw [toValue, ofValueWithin_tagged (by simp), verdict_leaf (by exact trivial)]
    simp only [ofShape]
    rw [Fields.read_object (by decide) rfl]
    simp [Fields.read, Fields.take_both, Fields.take_required, hv, Value.asBool]
  case enumeration.succ info constants =>
    have hv := ClassInfo.ofValue_toValue hi.self
    have hs : Value.asList Value.asString (.array (constants.map .string)) = .ok constants :=
      Value.asList_map fun _ _ => rfl
    rw [toValue, ofValueWithin_tagged (by simp), verdict_leaf (by exact trivial)]
    simp only [ofShape]
    rw [Fields.read_object (by decide) rfl]
    simp [Fields.read, Fields.take_both, Fields.take_required, hv, hs]
  case applied.succ raw args hr ha =>
    have hraw := hr hi.raw (depth_le_of_raw hd)
    have hargs : Value.asList (ofValueWithin n) (.array (args.map toValue))
        = args.mapM verdict := by
      rw [Value.asList, List.mapM_map]
      exact Except.mapM_congr fun a hm => ha a hm (hi.arg hm) (depth_le_of_arg hd hm)
    rw [toValue, toValueList_eq_map, ofValueWithin_tagged (by simp), verdict_applied]
    simp only [ofShape]
    rw [Fields.read_object (by simp [Fields.keys, Fields.required]) rfl]
    simp [Fields.read, Fields.take_both, Fields.take_required, hraw, hargs, Except.map_bind]
  case typeVar.succ param =>
    have hp := TypeParam.ofValue_toValue (p := param) (hi.self param (by simp [ownParams]))
    rw [toValue, ofValueWithin_tagged (by simp), verdict_leaf (by exact trivial)]
    simp only [ofShape]
    rw [Fields.read_object (by decide) rfl]
    simp [Fields.read, Fields.take_required, hp]

theorem ofValueWithin_toValue (hc : m.Everywhere Applies) (hi : m.IndicesFit)
    (hd : m.toValue.depth ≤ n) : ofValueWithin n m.toValue = .ok m := by
  rw [ofValueWithin_toValue_eq_verdict hi hd, verdict_of_applies hc]

theorem exists_tagged (m : Model) :
    ∃ shape ms, m.toValue = tagged shape ms ∧ "shape" ∉ ms.map (·.1) := by
  cases m <;> exact ⟨_, _, rfl, by simp [ClassInfo.members]⟩

theorem exists_tagged_toValue (m : Model) : ∃ shape, Tagged shape m.toValue := by
  cases m <;> exact ⟨_, .object (by simp [ClassInfo.members]; rfl)⟩

theorem written_toValue (h : m.IndicesFit) : m.toValue.Written m.toValue.render [] := by
  simpa using (toValue_plain h).written []

theorem readOuter_toValue (h : m.IndicesFit) :
    readOuter m.toValue.render
      = if m.toValue.depth ≤ Json.maxDepth then .ok (m.toValue, []) else .error .malformed := by
  have ⟨shape, ht⟩ := m.exists_tagged_toValue
  have hf := (toValue_plain h).finite
  simpa [Value.Fits, hf] using readOuter_of_written ht (written_toValue h)

theorem skipBlanks_write (h : m.IndicesFit) :
    Json.skipBlanks m.write.toList = m.toValue.render :=
  (toValue_plain h).skipBlanks_text

-- Models with the same text are the same, however deep they are nested.
theorem eq_of_write_eq {m n : Model} (hm : m.Everywhere Applies) (hn : n.Everywhere Applies)
    (him : m.IndicesFit) (hin : n.IndicesFit) (h : m.write = n.write) : m = n := by
  let d := max m.toValue.depth n.toValue.depth
  have hr {k : Model} (hi : k.IndicesFit) (hd : k.toValue.depth ≤ d) :
      Json.readValue d k.toValue.render = .ok (k.toValue, []) := by
    have hr := Json.readValue_of_written (d := d) (written_toValue hi) (by simp [Json.Numeral.Ends])
    rwa [if_pos ⟨hd, (toValue_plain hi).finite⟩] at hr
  have ht : m.toValue.render = n.toValue.render := String.ofList_injective h
  have hv : m.toValue = n.toValue := by
    have hv := (hr him (Nat.le_max_left ..)).symm.trans (ht ▸ hr hin (Nat.le_max_right ..))
    exact congrArg Prod.fst (Except.ok.inj hv)
  have hm := ofValueWithin_toValue hm him (Nat.le_refl _)
  have hn := ofValueWithin_toValue hn hin (Nat.le_refl _)
  rw [hv] at hm
  exact Except.ok.inj (hm.symm.trans hn)

theorem read_write (m : Model) (hc : m.Everywhere Applies) (hi : m.IndicesFit) :
    read m.write = if Json.nesting m.write ≤ 127 then .ok m else .error .malformed := by
  have hn : Json.nesting m.write = m.toValue.depth := Json.nesting_text (toValue_plain hi)
  rw [hn, read, skipBlanks_write hi, readOuter_toValue hi, Json.maxDepth]
  by_cases hd : m.toValue.depth ≤ 127
  case pos =>
    have hv : ofValue m.toValue = .ok m := ofValueWithin_toValue hc hi (Nat.le_refl _)
    have he : Json.expectEnd [] = .ok () := rfl
    simp [hd, hv, he]
  case neg => simp [hd]

-- A list of a variable at the last position, whose names have to be escaped.
theorem read_write_list :
    let elem : TypeParam := ⟨.cls WellKnown.list, 0, "E"⟩
    let last : TypeParam := ⟨.method "a\\b" "\x01\n", Json.Numeral.wordLimit - 1, "\"T\""⟩
    let m := applied (cls ⟨.list, WellKnown.list, none, [elem]⟩) [typeVar last]
    m.Everywhere Applies ∧ m.IndicesFit ∧ Json.nesting m.write ≤ 127 ∧ read m.write = .ok m := by
  intro elem last m
  have hc : m.Everywhere Applies := by
    refine .of_applied rfl (.of_leaf trivial trivial) fun a ha => ?_
    exact List.mem_singleton.mp ha ▸ .of_leaf trivial trivial
  have hi : m.IndicesFit := by
    have he : elem.Fits := Nat.two_pow_pos 64
    have hl : last.Fits := Nat.sub_one_lt <| Nat.ne_of_gt <| Nat.two_pow_pos 64
    refine .of_applied nofun (.of_leaf ?raw trivial) fun a ha => ?arg
    case raw => exact List.forall_mem_singleton.mpr he
    case arg => exact List.mem_singleton.mp ha ▸ .of_leaf (List.forall_mem_singleton.mpr hl) trivial
  have hn : Json.nesting m.write ≤ 127 := by
    rw [write, Json.nesting_text (toValue_plain hi)]
    decide
  exact ⟨hc, hi, hn, by rw [read_write m hc hi, if_pos hn]⟩

end Model

end ApiSurface
