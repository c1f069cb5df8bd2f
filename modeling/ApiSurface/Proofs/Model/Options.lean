import ApiSurface.Proofs.Json.Omitted
import ApiSurface.Proofs.Model.Homes
import ApiSurface.Proofs.Model.Spelling
import ApiSurface.Proofs.Model.Strict

namespace ApiSurface

open Json (Entry Listing Value)

open Model (optionKeys optionKeys_eq)

variable {u w : Value}

theorem ParamOwner.fixed_toValue (o : ParamOwner) : o.toValue.Fixed optionKeys := by
  cases o <;> exact Value.fixed_object (by simp [optionKeys_eq]) (by simp)

theorem TypeParam.fixed_toValue (p : TypeParam) : p.toValue.Fixed optionKeys :=
  Value.fixed_object (by simp [optionKeys_eq])
    (by simp [p.owner.fixed_toValue, Value.natural])

theorem ModuleRef.fixed_toValue (m : ModuleRef) : m.toValue.Fixed optionKeys :=
  Value.fixed_object (by simp [optionKeys_eq]) (by simp)

namespace ClassInfo

variable {i : ClassInfo}

-- All members but the module.
def membersButHome (i : ClassInfo) : List (String × Value) :=
  [("kind", i.kind.toValue), ("name", .string i.name),
   ("typeParams", .array (i.params.map TypeParam.toValue))]

-- Nothing but the module can be left out.
theorem eq_of_omits (h : (Value.object i.members).Omits optionKeys u w) :
    u = .object i.eraseHome.members ∧ w = .object i.membersButHome := by
  obtain ⟨us, ws, ho, rfl, rfl⟩ := Value.Omits.append
    [("kind", i.kind.toValue), ("name", .string i.name)]
    (by simp [optionKeys_eq]) (by simp [Kind.toValue]) h
  obtain ⟨_, hu, hw⟩ | ⟨_, _, ho, _⟩ | ⟨_, _, ho, _⟩ := ho.cons
  case inl     => cases hu; cases hw; exact ⟨rfl, rfl⟩
  case inr.inl =>
    have hf : ((i.home.map ModuleRef.toValue).getD .null).Fixed optionKeys := by
      cases i.home
      case none   => exact Value.fixed_null
      case some m => exact m.fixed_toValue
    exact absurd ho (hf _ _)
  case inr.inr =>
    have hf : (Value.array (i.params.map TypeParam.toValue)).Fixed optionKeys :=
      Value.fixed_array (by simp [TypeParam.fixed_toValue])
    refine absurd ho (Value.fixed_object ?_ ?_ _ _)
    · simp [optionKeys_eq]
    · simpa using hf

-- Whatever stands before its members, a class may be without its module.
theorem listing_membersButHome {es : List Entry} {ms : List (String × Value)}
    (h : List.Forall₂ (fun e m => m.1 = e.key ∧ e.written m.2) es ms) :
    Listing (es ++ i.eraseHome.entries) (.object (ms ++ i.membersButHome)) := by
  have hl : Listing (es ++ i.eraseHome.entries) (.object (ms ++ i.eraseHome.members)) :=
    .object (List.rel_append h i.eraseHome.listed_members)
  have hm : Entry.option "module" ModuleRef.Spelling none ∈ es ++ i.eraseHome.entries :=
    List.mem_append_right _ (by simp [entries, eraseHome])
  have hs : ms ++ i.eraseHome.members = (ms ++ i.eraseHome.members.take 2)
      ++ ("module", Value.null) :: i.eraseHome.members.drop 3 := by
    simp [members, eraseHome]
  rw [hs] at hl
  have hd := Listing.drop hl hm rfl
  rwa [List.append_assoc] at hd

-- In an object that starts with a class, the class has no module, or something behind it is left
-- out.
theorem spelling_of_omits {ms : List (String × Value)}
    (h : (Value.object (("class", i.toValue) :: ms)).Omits optionKeys u w) :
    (∃ v, i.eraseHome.Spelling v ∧ u = .object (("class", i.eraseHome.toValue) :: ms)
      ∧ w = .object (("class", v) :: ms))
    ∨ ∃ us ws, (Value.object ms).Omits optionKeys (.object us) (.object ws)
      ∧ u = .object (("class", i.toValue) :: us) ∧ w = .object (("class", i.toValue) :: ws) := by
  obtain ⟨_, v, hc, hu, hw⟩ | h := h.cons_inner (by simp [optionKeys_eq])
  case inl =>
    obtain ⟨rfl, rfl⟩ := eq_of_omits hc
    exact .inl ⟨_, listing_membersButHome .nil, hu, hw⟩
  case inr => exact .inr h

end ClassInfo

namespace Slots

variable {α : Type}

-- The slots with another content in one of them.
def set (s : Slots α) (slot : Slot) (content : Option α) : Slots α :=
  match slot with
  | .readStream  => { s with readStream := content }
  | .writeStream => { s with writeStream := content }
  | .handler     => { s with handler := content }
  | .iterable    => { s with iterable := content }
  | .iterator    => { s with iterator := content }
  | .functionIn  => { s with functionIn := content }
  | .functionOut => { s with functionOut := content }

theorem get_set (s : Slots α) (slot other : Slot) (content : Option α) :
    (s.set slot content).get other = if other = slot then content else s.get other := by
  cases slot <;> cases other <;> rfl

end Slots

namespace Model

-- One option at any depth is given up: the module of a class, or what a slot holds.
inductive Unset : Model → Model → Prop
  | cls {info} : Unset (cls info) (cls info.eraseHome)
  | api {info slots} : Unset (api info slots) (api info.eraseHome slots)
  | valueObject {info isAbstract} :
    Unset (valueObject info isAbstract) (valueObject info.eraseHome isAbstract)
  | enumeration {info constants} :
    Unset (enumeration info constants) (enumeration info.eraseHome constants)
  | slot {info slots} (slot : Slot) : Unset (api info slots) (api info (slots.set slot none))
  | inSlot {info slots m n} (slot : Slot) : slots.get slot = some m → Unset m n →
    Unset (api info slots) (api info (slots.set slot (some n)))
  | raw {raw raw' args} : Unset raw raw' → Unset (applied raw args) (applied raw' args)
  | arg {raw before a b after} : Unset a b →
    Unset (applied raw (before ++ a :: after)) (applied raw (before ++ b :: after))

variable {m n : Model} {shape : Shape} {ms : List (String × Value)}

namespace Unset

theorem ownParams_eq (h : Unset m n) : n.ownParams = m.ownParams := by
  cases h <;> rfl

theorem exists_info (h : Unset m n) {info : ClassInfo} (hi : m.info? = some info) :
    ∃ info', n.info? = some info' ∧ info'.params = info.params := by
  induction h
  case raw ih => exact ih hi
  case arg    => exact ⟨info, hi, rfl⟩
  all_goals
    cases hi
    exact ⟨_, rfl, rfl⟩

theorem applies (h : Unset m n) (hm : m.Applies) : n.Applies := by
  cases h
  case raw hr =>
    obtain ⟨_, info, hi, hn, hl⟩ := applyTo?_eq_ok_iff.mp hm
    obtain ⟨info', hi', hp⟩ := hr.exists_info hi
    exact applyTo?_eq_ok_iff.mpr ⟨rfl, info', hi', hn, hp ▸ hl⟩
  case arg    =>
    obtain ⟨_, info, hi, _, hl⟩ := applyTo?_eq_ok_iff.mp hm
    exact applyTo?_eq_ok_iff.mpr ⟨rfl, info, hi, by simp, by simpa using hl⟩
  all_goals exact trivial

-- What holds of all nodes still does, if giving up an option does not matter to it.
theorem everywhere {P : Model → Prop} (hp : ∀ {m n}, Unset m n → P m → P n) (h : Unset m n)
    (hm : m.Everywhere P) : n.Everywhere P := by
  induction h
  case cls         => exact .of_leaf (hp .cls hm.self) trivial
  case api         => exact .of_api (hp .api hm.self) fun slot a => hm.slot
  case valueObject => exact .of_leaf (hp .valueObject hm.self) trivial
  case enumeration => exact .of_leaf (hp .enumeration hm.self) trivial
  case slot slot   =>
    refine .of_api (hp (.slot slot) hm.self) fun other a ha => ?_
    rw [Slots.get_set] at ha
    split at ha
    case isTrue  => cases ha
    case isFalse => exact hm.slot ha
  case inSlot slot hs h hi =>
    refine .of_api (hp (.inSlot slot hs h) hm.self) fun other a ha => ?_
    rw [Slots.get_set] at ha
    split at ha
    case isTrue  => cases ha; exact hi (hm.slot hs)
    case isFalse => exact hm.slot ha
  case raw h hi    => exact .of_applied (hp (.raw h) hm.self) (hi hm.raw) fun a => hm.arg
  case arg h hi    =>
    refine .of_applied (hp (.arg h) hm.self) hm.raw (List.forall_mem_append.mpr ?_)
    rw [List.forall_mem_cons]
    exact ⟨fun a ha => hm.arg (by simp [ha]), hi (hm.arg (by simp)),
      fun a ha => hm.arg (by simp [ha])⟩

theorem indicesFit (h : Unset m n) (hm : m.IndicesFit) : n.IndicesFit :=
  h.everywhere (fun h hp => by rwa [h.ownParams_eq]) hm

end Unset

theorem omits_tagged (h : (tagged shape ms).Omits optionKeys u w) :
    ∃ us ws, (Value.object ms).Omits optionKeys (.object us) (.object ws)
      ∧ u = tagged shape us ∧ w = tagged shape ws :=
  Value.Omits.append [("shape", .string shape.label)] (by simp [optionKeys_eq])
    (by simp) h

section Slots

variable {slots : Slots Model} {slot : Slot} {before after : List Slot}

-- What is written for the slots when one of them holds something else.
theorem map_set {α : Type} (f : Slots Model → Slot → α) {o : Option Model}
    (hs : Slot.all = before ++ slot :: after)
    (hf : ∀ other, other ≠ slot → f (slots.set slot o) other = f slots other) :
    Slot.all.map (f (slots.set slot o))
      = before.map (f slots) ++ f (slots.set slot o) slot :: after.map (f slots) := by
  have hn : (before ++ slot :: after).Nodup := hs ▸ by decide
  rw [List.nodup_middle, List.nodup_cons, List.mem_append, not_or] at hn
  have hm {l : List Slot} (hl : slot ∉ l) : l.map (f (slots.set slot o)) = l.map (f slots) :=
    List.map_congr_left fun other ho => hf other fun he => hl (he ▸ ho)
  rw [hs, List.map_append, List.map_cons, hm hn.left.left, hm hn.left.right]

theorem slotMembers_set (hs : Slot.all = before ++ slot :: after) (o : Option Model) :
    slotMembers (slots.set slot o)
      = before.map (slotMember slots) ++ (slot.key, (o.map toValue).getD .null)
        :: after.map (slotMember slots) := by
  have hm : slotMember (slots.set slot o) slot = (slot.key, (o.map toValue).getD .null) := by
    rw [slotMember, slotValueOf, Slots.get_set, if_pos rfl]
  rw [← hm, slotMembers_eq_map]
  refine map_set slotMember hs fun other ho => ?_
  rw [slotMember, slotValueOf, Slots.get_set, if_neg ho]
  rfl

theorem slotEntries_set (hs : Slot.all = before ++ slot :: after) (o : Option Model) :
    slotEntries (slots.set slot o)
      = before.map (slotEntry slots) ++ .option slot.key Spelling o
        :: after.map (slotEntry slots) := by
  have hm : slotEntry (slots.set slot o) slot = .option slot.key Spelling o := by
    rw [slotEntry, Slots.get_set, if_pos rfl]
  rw [← hm, slotEntries_eq_map]
  refine map_set slotEntry hs fun other ho => ?_
  rw [slotEntry, Slots.get_set, if_neg ho]
  rfl

theorem exists_unset_of_omits_slots
    (ih : ∀ slot m, slots.get slot = some m → ∀ u w, m.toValue.Omits optionKeys u w →
      ∃ n, m.Unset n ∧ n.toValue = u ∧ n.Spelling w)
    (h : (Value.object (slotMembers slots)).Omits optionKeys u w) :
    ∃ slots', (∀ info, (api info slots).Unset (api info slots'))
      ∧ .object (slotMembers slots') = u ∧ Listing (slotEntries slots') w := by
  have hl := @listed_slots slots fun _ m _ => m.spelling_toValue
  generalize hv : Value.object (slotMembers slots) = v at h
  cases h <;> simp only [Value.object.injEq, reduceCtorEq] at hv
  all_goals
    rw [slotMembers_eq_map] at hv
    obtain ⟨before, others, hs, rfl, ho⟩ := List.map_eq_append_iff.mp hv
    obtain ⟨slot, after, rfl, hm, rfl⟩ := List.map_eq_cons_iff.mp ho
    cases hm
  case here =>
    refine ⟨slots.set slot none, fun _ => .slot slot, congrArg _ (slotMembers_set hs none), ?_⟩
    have hd : Listing (slotEntries (slots.set slot none)) (.object (before.map (slotMember slots)
        ++ (slot.key, .null) :: after.map (slotMember slots))) := by
      rw [slotEntries_set hs none]
      exact .object (List.rel_append (hl before) (.cons ⟨rfl, rfl⟩ (hl after)))
    have hm : .option slot.key Spelling none ∈ slotEntries (slots.set slot none) := by
      simp [slotEntries_set hs none]
    exact @Listing.drop _ _ _ (.option slot.key Spelling none) _ hd hm rfl
  case member u w h =>
    cases hm : slots.get slot <;> rw [slotValueOf, hm] at h
    case none   => exact absurd h (Value.fixed_null _ _)
    case some m =>
      obtain ⟨n, hn, rfl, hw⟩ := ih slot m hm u w h
      refine ⟨slots.set slot (some n), fun _ => .inSlot slot hm hn,
        congrArg _ (slotMembers_set hs (some n)), ?_⟩
      rw [slotEntries_set hs (some n)]
      exact .object (List.rel_append (hl before) (.cons ⟨rfl, hw⟩ (hl after)))

end Slots

theorem spelled_args (args : List Model) : List.Forall₂ Spelling args (args.map toValue) :=
  List.forall₂_map_right_iff.mpr (List.forall₂_same.mpr fun a _ => a.spelling_toValue)

theorem exists_unset_of_omits_args {args : List Model}
    (ih : ∀ a ∈ args, ∀ u w, a.toValue.Omits optionKeys u w →
      ∃ b, a.Unset b ∧ b.toValue = u ∧ b.Spelling w)
    (h : (Value.array (args.map toValue)).Omits optionKeys u w) :
    ∃ args', (∀ raw, (applied raw args).Unset (applied raw args'))
      ∧ .array (args'.map toValue) = u ∧ Json.Items Spelling args' w := by
  generalize hv : Value.array (args.map toValue) = v at h
  cases h <;> simp only [Value.array.injEq, reduceCtorEq] at hv
  case item u w h =>
    obtain ⟨before, others, rfl, rfl, ho⟩ := List.map_eq_append_iff.mp hv
    obtain ⟨a, after, rfl, rfl, rfl⟩ := List.map_eq_cons_iff.mp ho
    obtain ⟨b, hb, rfl, hs⟩ := ih a (by simp) _ _ h
    exact ⟨before ++ b :: after, fun _ => .arg hb, by rw [List.map_append, List.map_cons], _, rfl,
      List.rel_append (spelled_args before) (.cons hs (spelled_args after))⟩

-- Where a member is left out, a model with an option less is spelled.
theorem exists_unset_of_omits (h : m.toValue.Omits optionKeys u w) :
    ∃ n, m.Unset n ∧ n.toValue = u ∧ n.Spelling w := by
  induction m generalizing u w
  all_goals
    rw [toValue] at h
    obtain ⟨us, ws, ho, rfl, rfl⟩ := omits_tagged h
  case void => exact absurd ho (Value.fixed_object (by simp) (by simp) _ _)
  case primitive name boxed =>
    exact absurd ho (Value.fixed_object (by simp [optionKeys_eq]) (by simp) _ _)
  case cls info =>
    obtain ⟨hu, hw⟩ := ClassInfo.eq_of_omits ho
    cases hu
    cases hw
    exact ⟨_, .cls, rfl, ClassInfo.listing_membersButHome (.cons ⟨rfl, rfl⟩ .nil)⟩
  case api info slots ih =>
    obtain ⟨_, hi, hu, hw⟩ | ⟨_, _, hn, hu, hw⟩ := ClassInfo.spelling_of_omits ho <;>
      cases hu <;> cases hw
    case inl =>
      exact ⟨_, .api, rfl, .object <| .cons ⟨rfl, rfl⟩ <| .cons ⟨rfl, hi⟩ <|
        .cons ⟨rfl, listing_slots fun _ m _ => m.spelling_toValue⟩ .nil⟩
    case inr =>
      obtain ⟨_, _, hs, hu, hw⟩ := hn.single (by simp [optionKeys_eq])
      cases hu
      cases hw
      obtain ⟨slots', hi, rfl, hl⟩ :=
        exists_unset_of_omits_slots (fun slot m hm _ _ => ih slot m hm) hs
      exact ⟨_, hi info, rfl, .object <| .cons ⟨rfl, rfl⟩ <| .cons ⟨rfl, info.spelling_toValue⟩ <|
        .cons ⟨rfl, hl⟩ .nil⟩
  case valueObject info isAbstract =>
    obtain ⟨_, hi, hu, hw⟩ | ⟨_, _, hn, _⟩ := ClassInfo.spelling_of_omits ho
    case inl =>
      cases hu
      cases hw
      exact ⟨_, .valueObject, rfl, .object <| .cons ⟨rfl, rfl⟩ <| .cons ⟨rfl, hi⟩ <|
        .cons ⟨rfl, rfl⟩ .nil⟩
    case inr =>
      exact absurd hn (Value.fixed_object (by simp [optionKeys_eq]) (by simp) _ _)
  case enumeration info constants =>
    obtain ⟨_, hi, hu, hw⟩ | ⟨_, _, hn, _⟩ := ClassInfo.spelling_of_omits ho
    case inl =>
      cases hu
      cases hw
      exact ⟨_, .enumeration, rfl, .object <| .cons ⟨rfl, rfl⟩ <| .cons ⟨rfl, hi⟩ <|
        .cons ⟨rfl, rfl⟩ .nil⟩
    case inr =>
      have hf : (Value.array (constants.map .string)).Fixed optionKeys :=
        Value.fixed_array (by simp)
      exact absurd hn (Value.fixed_object (by simp [optionKeys_eq]) (by simpa using hf) _ _)
  case applied raw args hr ha =>
    rw [toValueList_eq_map] at ho
    obtain ⟨_, _, hm, hu, hw⟩ | ⟨_, _, hn, hu, hw⟩ := ho.cons_inner (by simp [optionKeys_eq])
    case inl =>
      cases hu
      cases hw
      obtain ⟨n, hn, rfl, hs⟩ := hr hm
      exact ⟨_, .raw hn, by rw [toValue, toValueList_eq_map], .object <| .cons ⟨rfl, rfl⟩ <|
        .cons ⟨rfl, hs⟩ <| .cons ⟨rfl, _, rfl, spellingList_iff.mpr (spelled_args args)⟩ .nil⟩
    case inr =>
      obtain ⟨_, _, hs, hu', hw'⟩ := hn.single (by simp [optionKeys_eq])
      cases hu'
      cases hw'
      cases hu
      cases hw
      obtain ⟨args', hi, rfl, vs, rfl, hl⟩ :=
        exists_unset_of_omits_args (fun a hm _ _ => ha a hm) hs
      exact ⟨_, hi raw, by rw [toValue, toValueList_eq_map], .object <| .cons ⟨rfl, rfl⟩ <|
        .cons ⟨rfl, raw.spelling_toValue⟩ <| .cons ⟨rfl, vs, rfl, spellingList_iff.mpr hl⟩ .nil⟩
  case typeVar param =>
    have hf : (Value.object [("param", param.toValue)]).Fixed optionKeys :=
      Value.fixed_object (by simp [optionKeys_eq]) (by simp [param.fixed_toValue])
    exact absurd ho (hf _ _)

-- At any depth, what is read depends on every member being there once. Without one that has to be
-- there, or with one that is there twice, no model is read; without a module or a slot it is the
-- model that has none.
theorem read_members (m : Model) (hc : m.Everywhere Applies) (hi : m.IndicesFit)
    (hn : Json.nesting m.write ≤ 127) :
    (∀ w, m.toValue.Damaged optionKeys w → read w.text = .error .mismatched)
    ∧ ∀ u w, m.toValue.Omits optionKeys u w →
      ∃ n, m.Unset n ∧ n.toValue = u ∧ read w.text = .ok n := by
  refine ⟨fun w hw => read_of_damaged hc hi hn hw, fun u w ho => ?_⟩
  obtain ⟨n, hu, hv, hs⟩ := exists_unset_of_omits ho
  have hp : w.Plain := ho.damaged.plain (toValue_plain hi)
  have hd : Json.nesting w.text ≤ 127 := by
    rw [write, Json.nesting_text (toValue_plain hi)] at hn
    rw [Json.nesting_text hp]
    exact ho.damaged.depth_le hn
  have hr := read_of_spelling (hu.everywhere Unset.applies hc) (hu.indicesFit hi) hs hp.isText
  exact ⟨n, hu, hv, by rw [hr, if_pos ⟨hd, hp.finite⟩]⟩

-- A handler whose tag is there twice, whose parameter has an owner without a tag, and whose slot is
-- left out.
theorem read_members_handler :
    let param : TypeParam := ⟨.cls "a.B", 0, "T"⟩
    let info : ClassInfo := ⟨.api, "a.B", some ⟨"a", "b", "a"⟩, [param]⟩
    let m := api info { handler := some (typeVar param) }
    let tag := ("shape", Value.string "api")
    let slots := ("args", Value.object (slotMembers { handler := some (typeVar param) }))
    let untagged := Value.object [("owner", .object [("name", .string "a.B")]),
      ("index", .natural 0), ("name", .string "T")]
    let named := Value.object (info.members.take 3 ++ [("typeParams", .array [untagged])])
    let empty := Value.object ((slotMembers {}).eraseIdx 2)
    m.Everywhere Applies ∧ m.IndicesFit ∧ Json.nesting m.write ≤ 127
    ∧ read (Value.object [tag, ("class", info.toValue), slots, tag]).text = .error .mismatched
    ∧ read (Value.object [tag, ("class", named), slots]).text = .error .mismatched
    ∧ read (Value.object [tag, ("class", info.toValue), ("args", empty)]).text
      = .ok (api info {}) := by
  intro param info m tag slots untagged named empty
  have hf : param.Fits := Nat.two_pow_pos 64
  have hc : m.Everywhere Applies := by
    refine .of_api trivial fun slot a ha => ?_
    cases slot <;> cases ha
    exact .of_leaf trivial trivial
  have hi : m.IndicesFit := by
    refine .of_api (List.forall_mem_singleton.mpr hf) fun slot a ha => ?_
    cases slot <;> cases ha
    exact .of_leaf (List.forall_mem_singleton.mpr hf) trivial
  have hn : Json.nesting m.write ≤ 127 := by
    rw [write, Json.nesting_text (toValue_plain hi)]
    decide
  obtain ⟨hdamaged, homits⟩ := read_members m hc hi hn
  refine ⟨hc, hi, hn, hdamaged _ ?twice, hdamaged _ ?untagged, ?omitted⟩
  case twice =>
    exact @Value.Damaged.repeating _ [tag, ("class", info.toValue), slots] [] tag (by simp)
  case untagged =>
    have ho : param.owner.toValue.Damaged optionKeys (.object [("name", .string "a.B")]) :=
      @Value.Damaged.lacking _ [] [_] "kind" _ (by decide)
    have hp : param.toValue.Damaged optionKeys untagged :=
      @Value.Damaged.member _ [] [_, _] "owner" _ _ ho
    have hl := @Value.Damaged.item _ [] [] _ _ hp
    exact @Value.Damaged.member _ [tag] [slots] "class" _ _
      (@Value.Damaged.member _ (info.members.take 3) [] "typeParams" _ _ hl)
  case omitted =>
    have hs := @Value.Omits.here optionKeys ((slotMembers {}).take 2) ((slotMembers {}).drop 3)
      "handlerArg" (typeVar param).toValue (by decide)
    obtain ⟨n, hu, hv, hr⟩ := homits (api info {}).toValue _
      (@Value.Omits.member _ [tag, ("class", info.toValue)] [] "args" _ _ _ hs)
    have hempty : (api info {}).Everywhere Applies ∧ (api info {}).IndicesFit := by
      constructor
      case left  => exact .of_api trivial fun slot a ha => by cases slot <;> cases ha
      case right =>
        exact .of_api (List.forall_mem_singleton.mpr hf) fun slot a ha => by cases slot <;> cases ha
    have he : n = api info {} := eq_of_write_eq (hu.everywhere Unset.applies hc) hempty.left
      (hu.indicesFit hi) hempty.right (by rw [write, hv, write])
    exact he ▸ hr

end Model

end ApiSurface
