import ApiSurface.Proofs.Json.Strict
import ApiSurface.Proofs.Model.RoundTrip

namespace ApiSurface

open Json (Fields StrictOn Value)

-- The keys of the members that may be left out.
def Model.optionKeys : List String :=
  "module" :: Slot.all.map Slot.key

theorem Model.optionKeys_eq : optionKeys =
    ["module", "readStreamArg", "writeStreamArg", "handlerArg", "iterableArg", "iteratorArg",
     "functionArgIn", "functionArgOut"] :=
  rfl

open Model (optionKeys optionKeys_eq)

section Classes

variable {d : Nat}

theorem strictOn_string (s : String) : StrictOn optionKeys d Value.asString (.string s) :=
  .of_scalar rfl rfl

theorem ParamOwner.strictOn (o : ParamOwner) : StrictOn optionKeys d ofValue o.toValue where
  takes _           := o.ofValue_toValue ▸ rfl
  refuses w _ hw  := by
    cases o <;> rw [ofValue]
    case cls =>
      refine Value.untag_of_damaged (tagOf?_label .cls) (by simp) hw fun content hv _ => ?_
      dsimp only
      rw [Fields.read_of_damaged ?strict ?nodup hv (Nat.le_refl _)]
      case strict => exact .required (strictOn_string _)
      case nodup  => simp
      rfl
    case method =>
      refine Value.untag_of_damaged (tagOf?_label .method) (by simp) hw fun content hv _ => ?_
      dsimp only
      rw [Fields.read_of_damaged ?strict ?nodup hv (Nat.le_refl _)]
      case strict => exact .both (.required (strictOn_string _)) (.required (strictOn_string _))
      case nodup  => simp
      rfl

theorem TypeParam.strictOn {p : TypeParam} (h : p.Fits) :
    StrictOn optionKeys d ofValue p.toValue where
  takes _           := TypeParam.ofValue_toValue h ▸ rfl
  refuses w hd hw := by
    simp only [ofValue]
    rw [Fields.read_of_damaged ?strict ?nodup hw (Nat.le_of_lt hd)]
    case strict =>
      have hi : Value.asNatural (.natural p.index) = .ok p.index := by
        simp [Value.asNatural, Value.natural, Json.Numeral.natural?_ofNat h]
      exact .both (.required p.owner.strictOn) <| .both (.required (.of_scalar (hi ▸ rfl) rfl)) <|
        .required (strictOn_string p.name)
    case nodup => simp
    rfl

theorem ModuleRef.strictOn (m : ModuleRef) : StrictOn optionKeys d ofValue m.toValue where
  takes _         := m.ofValue_toValue ▸ rfl
  refuses w hd hw := by
    simp only [ofValue]
    rw [Fields.read_of_damaged ?strict ?nodup hw (Nat.le_of_lt hd)]
    case strict =>
      exact .both (.required (strictOn_string _)) <| .both (.required (strictOn_string _)) <|
        .required (strictOn_string _)
    case nodup  => simp
    rfl

theorem ClassInfo.ofValue_of_damaged {i : ClassInfo} {v : Value} (h : ∀ p ∈ i.params, p.Fits)
    (hv : (Value.object i.members).Damaged optionKeys v) : ofValue v = .error .mismatched := by
  simp only [ofValue]
  rw [Fields.read_of_damaged ?strict ?nodup hv (Nat.le_refl _)]
  case strict =>
    have hk : (Kind.ofMember i.kind.toValue).isOk := i.kind.ofMember_toValue ▸ rfl
    refine .both (.required (.of_scalar hk rfl)) <| .both (.required (strictOn_string _)) <|
      .both (.optional (by simp [optionKeys_eq]) ?home) <| .required (.list ?params)
    case home   =>
      cases i.home
      case none   => exact .inl rfl
      case some m => exact .inr m.strictOn
    case params =>
      intro v hv
      obtain ⟨p, hp, rfl⟩ := List.mem_map.mp hv
      exact TypeParam.strictOn (h p hp)
  case nodup  => simp [members]
  rfl

theorem ClassInfo.strictOn {i : ClassInfo} (h : ∀ p ∈ i.params, p.Fits) :
    StrictOn optionKeys d ofValue i.toValue where
  takes _        := ClassInfo.ofValue_toValue h ▸ rfl
  refuses _ _ hw := ClassInfo.ofValue_of_damaged h hw

end Classes

namespace Model

variable {m : Model} {n : Nat} {shape : Shape} {ms : List (String × Value)} {v w : Value}

theorem strictOn_slots {slots : Slots Model} {inner : Value → Except Fault Model} {d : Nat}
    (h : ∀ slot m, slots.get slot = some m → StrictOn optionKeys d inner m.toValue) :
    StrictOn optionKeys d (Slots.ofValue inner) (.object (slotMembers slots)) where
  takes hd        := by
    have hr (slot : Slot) : ∃ o, ((slots.get slot).mapM fun m => inner m.toValue) = .ok o := by
      cases hm : slots.get slot
      case none   => exact ⟨_, rfl⟩
      case some m =>
        have hs : (slot.key, slotValueOf slots slot) ∈ slotMembers slots := by
          rw [slotMembers_eq_map]
          exact List.mem_map_of_mem slot.mem_all
        have hd := (Value.depth_object_le_iff.mp (Nat.le_of_lt hd)).right _ hs
        rw [slotValueOf, hm] at hd
        obtain ⟨k, hk⟩ := Except.isOk_iff.mp ((h slot m hm).takes hd)
        exact ⟨some k, by simp [hk]⟩
    choose o ho using hr
    rw [ofValue_slots]
    simp only [ho]
    rfl
  refuses w hd hw := by
    have hs (slot : Slot) : (Fields.optional slot.key inner).Strict optionKeys d
        [(slot.key, slotValueOf slots slot)] := by
      refine .optional (List.mem_cons_of_mem _ (List.mem_map_of_mem slot.mem_all)) ?_
      rw [slotValueOf]
      cases hm : slots.get slot
      case none   => exact .inl rfl
      case some m => exact .inr (h slot m hm)
    rw [slotMembers_eq_map] at hw
    simp only [Slots.ofValue]
    rw [Fields.read_of_damaged ?strict ?nodup hw (Nat.le_of_lt hd)]
    case strict =>
      exact .both (hs .readStream) <| .both (hs .writeStream) <| .both (hs .handler) <|
        .both (hs .iterable) <| .both (hs .iterator) <| .both (hs .functionIn) (hs .functionOut)
    case nodup  => simp [Slot.all, Slot.key]
    rfl

-- What is written for a model is read within any depth, and nothing that it turns into when it is
-- damaged.
theorem strictOn (hc : m.Everywhere Applies) (hi : m.IndicesFit) :
    StrictOn optionKeys (n + 1) (ofValueWithin n) m.toValue := by
  have ht {m : Model} {n : Nat} (hc : m.Everywhere Applies) (hi : m.IndicesFit)
      (hd : m.toValue.depth < n + 1) : (ofValueWithin n m.toValue).isOk :=
    ofValueWithin_toValue hc hi (Nat.le_of_lt_succ hd) ▸ rfl
  induction m generalizing n
  all_goals
    refine ⟨ht hc hi, fun w hd hw => ?_⟩
    obtain _ | n := n
    case zero => rfl
    rw [toValue] at hw
    refine Value.untag_of_damaged (tagOf?_label _) (by simp [ClassInfo.members]) hw
      fun v hv hl => ?_
    replace hd := Nat.le_trans hl (Nat.le_of_lt_succ hd)
    simp only [ofShape]
  case void =>
    obtain ⟨_, _, _, m, hm, _⟩ := hv.members (by simp)
    exact absurd hm List.not_mem_nil
  case primitive name boxed =>
    rw [Fields.read_of_damaged ?strict ?nodup hv hd]
    case strict => exact .both (.required (strictOn_string _)) (.required (strictOn_string _))
    case nodup  => simp
    rfl
  case cls info =>
    rw [ClassInfo.ofValue_of_damaged hi.self hv]
    rfl
  case api info slots ih =>
    rw [Fields.read_of_damaged ?strict ?nodup hv hd]
    case strict =>
      refine .both (.required (ClassInfo.strictOn hi.self)) (.required ?_)
      exact strictOn_slots fun slot m hm => ih slot m hm (hc.slot hm) (hi.slot hm)
    case nodup  => simp
    rfl
  case valueObject info isAbstract =>
    rw [Fields.read_of_damaged ?strict ?nodup hv hd]
    case strict =>
      exact .both (.required (ClassInfo.strictOn hi.self)) (.required (.of_scalar rfl rfl))
    case nodup  => simp
    rfl
  case enumeration info constants =>
    rw [Fields.read_of_damaged ?strict ?nodup hv hd]
    case strict =>
      refine .both (.required (ClassInfo.strictOn hi.self)) (.required (.list fun v hv => ?_))
      obtain ⟨s, _, rfl⟩ := List.mem_map.mp hv
      exact strictOn_string s
    case nodup  => simp
    rfl
  case applied raw args hr ha =>
    rw [toValueList_eq_map] at hv
    rw [Fields.read_of_damaged ?strict ?nodup hv hd]
    case strict =>
      refine .both (.required (hr hc.raw hi.raw)) (.required (.list fun v hv => ?_))
      obtain ⟨a, hm, rfl⟩ := List.mem_map.mp hv
      exact ha a hm (hc.arg hm) (hi.arg hm)
    case nodup  => simp
    rfl
  case typeVar param =>
    rw [Fields.read_of_damaged ?strict ?nodup hv hd]
    case strict =>
      exact .required (TypeParam.strictOn (hi.self param (by simp [ownParams])))
    case nodup  => simp
    rfl

-- The outermost value is read, unless its tag is there twice.
theorem readOuter_of_damaged (hw : m.toValue.Damaged optionKeys w) (hp : w.Plain)
    (hf : w.Fits Json.maxDepth) :
    readOuter w.render = .ok (w, []) ∨ readOuter w.render = .error .mismatched := by
  obtain ⟨shape, ms, hm, hk⟩ := m.exists_tagged
  have hr : w.Written w.render [] := by simpa using hp.written []
  rw [hm, tagged] at hw
  obtain ⟨ns, rfl, hs | hs | ⟨hs, _⟩⟩ := hw.tag rfl (Value.filter_key_cons hk).left
  case inl         => exact .inl (by rw [readOuter_untagged hs hr, if_pos hf])
  case inr.inl     => exact .inr (readOuter_twice hs hf hr)
  case inr.inr     => exact .inl (by rw [readOuter_of_written (.object hs) hr, if_pos hf])

theorem read_of_damaged (hc : m.Everywhere Applies) (hi : m.IndicesFit)
    (hn : Json.nesting m.write ≤ 127) (hw : m.toValue.Damaged optionKeys w) :
    read w.text = .error .mismatched := by
  have hp : w.Plain := hw.plain (toValue_plain hi)
  have hd : w.depth ≤ Json.maxDepth := by
    rw [write, Json.nesting_text (toValue_plain hi)] at hn
    exact hw.depth_le hn
  have hv : ofValue w = .error .mismatched :=
    (strictOn hc hi).refuses w (Nat.lt_succ_self _) hw
  rw [read, hp.skipBlanks_text]
  obtain hr | hr := readOuter_of_damaged hw hp ⟨hd, hp.finite⟩
  case inl => simp only [hr, Except.ok_bind, hv]; rfl
  case inr => rw [hr]; rfl

end Model

end ApiSurface
