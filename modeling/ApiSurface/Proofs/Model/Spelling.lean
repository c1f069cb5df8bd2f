import ApiSurface.Model.Equality
import ApiSurface.Proofs.Json.Listing
import ApiSurface.Proofs.Model.RoundTrip
import Mathlib.Data.List.Rotate

namespace ApiSurface

open Json (Entry Fields Holds Items Listing Value)

-- A kind may also be an object.
def Kind.Spelling (k : Kind) (v : Value) : Prop :=
  v = k.toValue ∨ v = .object [(k.label, .null)]

def ParamOwner.entries : ParamOwner → List Entry
  | cls name              => [.string "kind" Form.cls.label, .string "name" name]
  | method declaring name =>
    [.string "kind" Form.method.label, .string "class" declaring, .string "method" name]

def ParamOwner.Spelling (o : ParamOwner) : Value → Prop :=
  Listing o.entries

def TypeParam.entries (p : TypeParam) : List Entry :=
  [⟨"owner", p.owner.Spelling, False⟩, ⟨"index", (· = .natural p.index), False⟩,
   .string "name" p.name]

def TypeParam.Spelling (p : TypeParam) : Value → Prop :=
  Listing p.entries

def ModuleRef.entries (m : ModuleRef) : List Entry :=
  [.string "package" m.packageName, .string "name" m.name, .string "groupPackage" m.groupPackage]

def ModuleRef.Spelling (m : ModuleRef) : Value → Prop :=
  Listing m.entries

def ClassInfo.entries (i : ClassInfo) : List Entry :=
  [⟨"kind", i.kind.Spelling, False⟩, .string "name" i.name,
   .option "module" ModuleRef.Spelling i.home,
   ⟨"typeParams", Items TypeParam.Spelling i.params, False⟩]

def ClassInfo.Spelling (i : ClassInfo) : Value → Prop :=
  Listing i.entries

namespace Model

def tag (shape : Shape) : Entry :=
  .string "shape" shape.label

mutual

def Spelling : Model → Value → Prop
  | void                        => Listing [tag .void]
  | primitive name boxed        =>
    Listing [tag .primitive, .string "name" name, .string "boxed" boxed]
  | cls info                    => Listing (tag .cls :: info.entries)
  | api info slots              =>
    Listing [tag .api, ⟨"class", info.Spelling, False⟩,
      ⟨"args", Listing (slotEntries slots), False⟩]
  | valueObject info isAbstract =>
    Listing [tag .valueObject, ⟨"class", info.Spelling, False⟩,
      ⟨"isAbstract", (· = .bool isAbstract), False⟩]
  | enumeration info constants  =>
    Listing [tag .enumeration, ⟨"class", info.Spelling, False⟩,
      ⟨"values", (· = .array (constants.map .string)), False⟩]
  | applied raw args            =>
    Listing [tag .applied, ⟨"raw", Spelling raw, False⟩,
      ⟨"args", fun v => ∃ vs, v = .array vs ∧ SpellingList args vs, False⟩]
  | typeVar param               => Listing [tag .typeVar, ⟨"param", param.Spelling, False⟩]
termination_by structural m => m

def slotEntries : Slots Model → List Entry
  | ⟨readStream, writeStream, handler, iterable, iterator, functionIn, functionOut⟩ =>
    [⟨"readStreamArg", SlotSpelling readStream, readStream = none⟩,
     ⟨"writeStreamArg", SlotSpelling writeStream, writeStream = none⟩,
     ⟨"handlerArg", SlotSpelling handler, handler = none⟩,
     ⟨"iterableArg", SlotSpelling iterable, iterable = none⟩,
     ⟨"iteratorArg", SlotSpelling iterator, iterator = none⟩,
     ⟨"functionArgIn", SlotSpelling functionIn, functionIn = none⟩,
     ⟨"functionArgOut", SlotSpelling functionOut, functionOut = none⟩]
termination_by structural s => s

def SlotSpelling : Option Model → Value → Prop
  | none,   v => v = .null
  | some m, v => Spelling m v
termination_by structural s => s

def SpellingList : List Model → List Value → Prop
  | [],      []      => True
  | m :: ms, v :: vs => Spelling m v ∧ SpellingList ms vs
  | _,       _       => False
termination_by structural ms => ms

end

theorem slotSpelling_eq (o : Option Model) :
    SlotSpelling o = fun v => o.elim (v = .null) (Spelling · v) := by
  cases o <;> rfl

theorem slotEntries_eq_map (slots : Slots Model) :
    slotEntries slots
      = Slot.all.map fun slot => .option slot.key Spelling (slots.get slot) := by
  obtain ⟨_, _, _, _, _, _, _⟩ := slots
  simp [slotEntries, slotSpelling_eq, Slots.get, Slot.all, Slot.key, Entry.option]

theorem spellingList_iff {ms : List Model} {vs : List Value} :
    SpellingList ms vs ↔ List.Forall₂ Spelling ms vs := by
  induction ms generalizing vs
  case nil          => cases vs <;> simp [SpellingList]
  case cons m ms hi => cases vs <;> simp [SpellingList, hi]

end Model

theorem ParamOwner.spelling_toValue (o : ParamOwner) : o.Spelling o.toValue := by
  cases o
  case cls    => exact .object (.cons ⟨rfl, rfl⟩ <| .cons ⟨rfl, rfl⟩ .nil)
  case method =>
    exact .object (.cons ⟨rfl, rfl⟩ <| .cons ⟨rfl, rfl⟩ <| .cons ⟨rfl, rfl⟩ .nil)

theorem TypeParam.spelling_toValue (p : TypeParam) : p.Spelling p.toValue :=
  .object (.cons ⟨rfl, p.owner.spelling_toValue⟩ <| .cons ⟨rfl, rfl⟩ <| .cons ⟨rfl, rfl⟩ .nil)

theorem ModuleRef.spelling_toValue (m : ModuleRef) : m.Spelling m.toValue :=
  .object (.cons ⟨rfl, rfl⟩ <| .cons ⟨rfl, rfl⟩ <| .cons ⟨rfl, rfl⟩ .nil)

theorem ClassInfo.listed_members (i : ClassInfo) :
    List.Forall₂ (fun e m => m.1 = e.key ∧ e.written m.2) i.entries i.members :=
  .cons ⟨rfl, .inl rfl⟩ <| .cons ⟨rfl, rfl⟩ <|
    .cons ⟨rfl, Json.written_option fun m _ => m.spelling_toValue⟩ <|
    .cons ⟨rfl, Json.items_map fun p _ => p.spelling_toValue⟩ .nil

theorem ClassInfo.spelling_toValue (i : ClassInfo) : i.Spelling i.toValue :=
  .object i.listed_members

namespace Model

-- The entry of a slot, and what is written for it.
def slotEntry (slots : Slots Model) (slot : Slot) : Entry :=
  .option slot.key Spelling (slots.get slot)

def slotMember (slots : Slots Model) (slot : Slot) : String × Value :=
  (slot.key, slotValueOf slots slot)

theorem listed_slots {slots : Slots Model}
    (h : ∀ slot m, slots.get slot = some m → m.Spelling m.toValue) (ss : List Slot) :
    List.Forall₂ (fun e m => m.1 = e.key ∧ e.written m.2) (ss.map (slotEntry slots))
      (ss.map (slotMember slots)) := by
  refine List.forall₂_map_left_iff.mpr <| List.forall₂_map_right_iff.mpr <|
    List.forall₂_same.mpr fun slot _ => ⟨rfl, ?_⟩
  exact Json.written_option fun m hm => h slot m hm

theorem listing_slots {slots : Slots Model}
    (h : ∀ slot m, slots.get slot = some m → m.Spelling m.toValue) :
    Listing (slotEntries slots) (.object (slotMembers slots)) := by
  rw [slotEntries_eq_map, slotMembers_eq_map]
  exact .object (listed_slots h Slot.all)

theorem spelling_toValue (m : Model) : m.Spelling m.toValue := by
  induction m
  case void                         => exact .object (.cons ⟨rfl, rfl⟩ .nil)
  case primitive name boxed         =>
    exact .object (.cons ⟨rfl, rfl⟩ <| .cons ⟨rfl, rfl⟩ <| .cons ⟨rfl, rfl⟩ .nil)
  case cls info                     => exact .object (.cons ⟨rfl, rfl⟩ info.listed_members)
  case api info slots hi            =>
    exact .object (.cons ⟨rfl, rfl⟩ <| .cons ⟨rfl, info.spelling_toValue⟩ <|
      .cons ⟨rfl, listing_slots hi⟩ .nil)
  case valueObject info isAbstract  =>
    exact .object (.cons ⟨rfl, rfl⟩ <| .cons ⟨rfl, info.spelling_toValue⟩ <| .cons ⟨rfl, rfl⟩ .nil)
  case enumeration info constants   =>
    exact .object (.cons ⟨rfl, rfl⟩ <| .cons ⟨rfl, info.spelling_toValue⟩ <| .cons ⟨rfl, rfl⟩ .nil)
  case applied raw args hr ha       =>
    have hs : SpellingList args (toValueList args) := by
      rw [toValueList_eq_map, spellingList_iff]
      exact List.forall₂_map_right_iff.mpr (List.forall₂_same.mpr ha)
    exact .object (.cons ⟨rfl, rfl⟩ <| .cons ⟨rfl, hr⟩ <| .cons ⟨rfl, _, rfl, hs⟩ .nil)
  case typeVar param                =>
    exact .object (.cons ⟨rfl, rfl⟩ <| .cons ⟨rfl, param.spelling_toValue⟩ .nil)

end Model

theorem Kind.ofMember_of_spelling {k : Kind} {v : Value} (h : k.Spelling v) :
    ofMember v = .ok k := by
  obtain rfl | rfl := h
  case inl => exact k.ofMember_toValue
  case inr => simp [ofMember, ofValue]

theorem ParamOwner.ofValue_of_spelling {o : ParamOwner} {v : Value} (h : o.Spelling v) :
    ofValue v = .ok o := by
  have hl := Json.holds_of_listing (by cases o <;> simp [entries]) h
  cases o
  case cls name =>
    obtain ⟨content, hu, hc⟩ := Json.untag_of_holds (tagOf?_label .cls) (by simp) hl
    have hr := Fields.read_of_holds .string (by simp) hc (Nat.le_refl _)
    simp [ofValue, hu, hr]
  case method declaring name =>
    obtain ⟨content, hu, hc⟩ := Json.untag_of_holds (tagOf?_label .method) (by simp) hl
    have hr := Fields.read_of_holds (.both .string .string) (by simp) hc (Nat.le_refl _)
    simp [ofValue, hu, hr]

theorem TypeParam.ofValue_of_spelling {p : TypeParam} {v : Value} (hf : p.Fits)
    (h : p.Spelling v) : ofValue v = .ok p := by
  have hn : (p.entries.map (·.key)).Nodup := by simp [entries]
  have hi : ∀ v : Value, v = .natural p.index → v.asNatural = .ok p.index := by
    rintro v rfl
    simp [Value.asNatural, Value.natural, Json.Numeral.natural?_ofNat hf]
  have hr := Fields.read_of_holds
    (.both (.required fun _ _ => ParamOwner.ofValue_of_spelling) <|
      .both (.required fun v _ => hi v) .string)
    hn (Json.holds_of_listing hn h) (Nat.le_refl _)
  simp [ofValue, hr]

theorem ModuleRef.ofValue_of_spelling {m : ModuleRef} {v : Value} (h : m.Spelling v) :
    ofValue v = .ok m := by
  have hn : (m.entries.map (·.key)).Nodup := by simp [entries]
  have hr := Fields.read_of_holds (.both .string <| .both .string .string) hn
    (Json.holds_of_listing hn h) (Nat.le_refl _)
  simp [ofValue, hr]

theorem ModuleRef.ne_null_of_spelling {m : ModuleRef} {v : Value} (h : m.Spelling v) :
    v ≠ .null := by
  rintro rfl
  cases h

theorem ClassInfo.ofValue_of_holds {i : ClassInfo} {v : Value} (hf : ∀ p ∈ i.params, p.Fits)
    (h : Holds i.entries v) : ofValue v = .ok i := by
  have hn : (i.entries.map (·.key)).Nodup := by simp [entries]
  simp only [ofValue]
  rw [Fields.read_of_holds (a := (i.kind, i.name, i.home, i.params)) ?reads hn h (Nat.le_refl _)]
  case reads =>
    refine .both (.required fun _ _ => Kind.ofMember_of_spelling) <| .both .string <|
      .both (.option fun m _ v _ hm => ?home) <| .required fun v _ hv => ?params
    case home   => exact ⟨ModuleRef.ne_null_of_spelling hm, ModuleRef.ofValue_of_spelling hm⟩
    case params =>
      exact Json.asList_of_items hv fun p hp w _ => TypeParam.ofValue_of_spelling (hf p hp)
  rfl

theorem ClassInfo.ofValue_of_spelling {i : ClassInfo} {v : Value} (hf : ∀ p ∈ i.params, p.Fits)
    (h : i.Spelling v) : ofValue v = .ok i :=
  ofValue_of_holds hf (Json.holds_of_listing (by simp [entries]) h)

namespace Model

variable {m : Model} {shape : Shape} {v : Value} {es : List Entry} {n : Nat}

-- What is behind the tag is read by its shape, with the models in it nested less deep.
theorem exists_content_of_listing (h : Listing (tag shape :: es) v)
    (hn : ((tag shape :: es).map (·.key)).Nodup) (hd : v.depth ≤ n) :
    ∃ k content, Holds es content ∧ content.depth ≤ k + 1
      ∧ ofValueWithin n v = ofShape (ofValueWithin k) content shape := by
  have hk : "shape" ∉ es.map (·.key) := (List.nodup_cons.mp hn).left
  obtain ⟨content, hu, hc⟩ := Json.untag_of_holds (tagOf?_label shape) hk
    (Json.holds_of_listing hn h)
  obtain ⟨hp, hle⟩ := Value.depth_of_untag hu
  cases n
  case zero   => omega
  case succ k =>
    exact ⟨k, content, hc, Nat.le_trans hle hd, by rw [ofValueWithin, hu, Except.ok_bind]⟩

theorem ne_null_of_spelling (h : m.Spelling v) : v ≠ .null := by
  rintro rfl
  cases m <;> cases h

theorem ofSlots_of_listing {slots : Slots Model} {inner : Value → Except Fault Model}
    (h : Listing (slotEntries slots) v)
    (hm : ∀ slot m, slots.get slot = some m → ∀ w, w.depth < v.depth → m.Spelling w →
      inner w = .ok m) :
    Slots.ofValue inner v = .ok slots := by
  rw [slotEntries_eq_map] at h
  have hn : ((Slot.all.map fun slot => Entry.option slot.key Spelling (slots.get slot)).map
      (·.key)).Nodup := by
    simp [Slot.all, Slot.key]
  simp only [Slots.ofValue]
  rw [Fields.read_of_holds (a := (slots.readStream, slots.writeStream, slots.handler,
    slots.iterable, slots.iterator, slots.functionIn, slots.functionOut)) ?reads hn
    (Json.holds_of_listing hn h) (Nat.le_refl _)]
  case reads =>
    have ho (slot : Slot) : (Fields.optional slot.key inner).Reads v.depth
        [.option slot.key Spelling (slots.get slot)] (slots.get slot) :=
      .option fun m hg w hd hs => ⟨ne_null_of_spelling hs, hm slot m hg w hd hs⟩
    exact .both (ho .readStream) <| .both (ho .writeStream) <| .both (ho .handler) <|
      .both (ho .iterable) <| .both (ho .iterator) <| .both (ho .functionIn) (ho .functionOut)
  rfl

-- Whatever the spelling, the model is what is read.
theorem ofValueWithin_of_spelling (hc : m.Everywhere Applies) (hi : m.IndicesFit)
    (hv : m.Spelling v) (hd : v.depth ≤ n) : ofValueWithin n v = .ok m := by
  induction m generalizing n v
  case void =>
    obtain ⟨k, content, ⟨_⟩ | ⟨⟨⟩⟩, _, he⟩ := exists_content_of_listing hv (by simp [tag]) hd
    all_goals
      rw [he]
      rfl
  case primitive name boxed =>
    obtain ⟨k, content, hh, _, he⟩ := exists_content_of_listing hv (by simp [tag]) hd
    have hr := Fields.read_of_holds (.both .string .string) (by simp) hh (Nat.le_refl _)
    rw [he]
    simp [ofShape, hr]
  case cls info =>
    obtain ⟨k, content, hh, _, he⟩ := exists_content_of_listing hv
      (by simp [tag, ClassInfo.entries]) hd
    rw [he, ofShape, ClassInfo.ofValue_of_holds hi.self hh]
    rfl
  case api info slots ih =>
    obtain ⟨k, content, hh, hd, he⟩ := exists_content_of_listing hv (by simp [tag]) hd
    rw [he]
    simp only [ofShape]
    rw [Fields.read_of_holds (a := (info, slots)) ?reads (by simp) hh (Nat.le_refl _)]
    case reads =>
      refine .both (.required fun w _ hw => ClassInfo.ofValue_of_spelling hi.self hw) <|
        .required fun w hwd hw => ofSlots_of_listing hw fun slot a ha u hu hs => ?slot
      case slot => exact ih slot a ha (hc.slot ha) (hi.slot ha) hs (by omega)
    rfl
  case valueObject info isAbstract =>
    obtain ⟨k, content, hh, _, he⟩ := exists_content_of_listing hv (by simp [tag]) hd
    rw [he]
    simp only [ofShape]
    rw [Fields.read_of_holds (a := (info, isAbstract)) ?reads (by simp) hh (Nat.le_refl _)]
    case reads =>
      exact .both (.required fun w _ hw => ClassInfo.ofValue_of_spelling hi.self hw) <|
        .required fun w _ hw => hw ▸ rfl
    rfl
  case enumeration info constants =>
    obtain ⟨k, content, hh, _, he⟩ := exists_content_of_listing hv (by simp [tag]) hd
    rw [he]
    simp only [ofShape]
    rw [Fields.read_of_holds (a := (info, constants)) ?reads (by simp) hh (Nat.le_refl _)]
    case reads =>
      exact .both (.required fun w _ hw => ClassInfo.ofValue_of_spelling hi.self hw) <|
        .required fun w _ hw => hw ▸ Value.asList_map fun _ _ => rfl
    rfl
  case applied raw args hr ha =>
    obtain ⟨k, content, hh, hd, he⟩ := exists_content_of_listing hv (by simp [tag]) hd
    rw [he]
    simp only [ofShape]
    rw [Fields.read_of_holds (a := (raw, args)) ?reads (by simp) hh (Nat.le_refl _)]
    case reads =>
      refine .both (.required fun w hwd hw => ?raw) <| .required fun w hwd hw => ?args
      case raw  => exact hr hc.raw hi.raw hw (by omega)
      case args =>
        obtain ⟨vs, rfl, hw⟩ := hw
        refine Json.asList_of_items ⟨vs, rfl, spellingList_iff.mp hw⟩ fun a hm u hu hs => ?_
        exact ha a hm (hc.arg hm) (hi.arg hm) hs (by omega)
    have happ : raw.applyTo? args = .ok (applied raw args) := hc.self
    simp [happ]
    rfl
  case typeVar param =>
    obtain ⟨k, content, hh, _, he⟩ := exists_content_of_listing hv (by simp [tag]) hd
    have hf : param.Fits := hi.self param (by simp [ownParams])
    rw [he]
    simp only [ofShape]
    rw [Fields.read_of_holds (a := param) ?reads (by simp) hh (Nat.le_refl _)]
    case reads => exact .required fun w _ hw => TypeParam.ofValue_of_spelling hf hw
    rfl

theorem tagged_of_listing (h : Listing (tag shape :: es) v)
    (hn : ((tag shape :: es).map (·.key)).Nodup) : Tagged shape v := by
  obtain hv | hv := Json.holds_of_listing hn h
  case object =>
    obtain ⟨_, rfl, hf⟩ | ⟨⟨⟩, _⟩ := hv (tag shape) (List.mem_cons_self ..)
    exact .object hf
  case array =>
    obtain ⟨_, vs, rfl, _, rfl⟩ := List.forall₂_cons_left_iff.mp hv
    exact .array

theorem exists_tagged_of_spelling (h : m.Spelling v) : ∃ shape, Tagged shape v := by
  cases m <;> exact ⟨_, tagged_of_listing h (by simp [tag, ClassInfo.entries])⟩

theorem read_of_spelling {s : String} (hc : m.Everywhere Applies) (hi : m.IndicesFit)
    (hv : m.Spelling v) (hs : v.IsText s) :
    read s = if Json.nesting s ≤ 127 ∧ v.finite then .ok m else .error .malformed := by
  obtain ⟨shape, ht⟩ := exists_tagged_of_spelling hv
  have hn : Json.nesting s = v.depth := Json.nesting_of_isText hs
  obtain ⟨rest, hw, he⟩ := Value.isText_iff.mp hs
  have hm : ofValue v = .ok m := ofValueWithin_of_spelling hc hi hv (Nat.le_refl _)
  have he : Json.expectEnd rest = .ok () := Json.expectEnd_eq_ok_iff.mpr he
  rw [read, readOuter_of_written ht hw, hn]
  simp only [Value.Fits, Json.maxDepth]
  by_cases hf : v.depth ≤ 127 ∧ v.finite
  case pos =>
    simp [hf, hm, he]
  case neg => simp [hf]

end Model

end ApiSurface
